import Mathlib
import TableClient.Proofs.Condition.Shapes

/-!
# Reading terms

What stands before a test is any number of opening parentheses and `NOT`s, and what stands behind
it any number of closing parentheses; in an evenly spaced text the parentheses may have single
spaces beside them. Reading takes exactly these texts off: counting parentheses tells those of the
test from those around it.

Results:
* `peelOpening_append`, `exists_opening`: what is taken off in front of a test.
* `dropClosing_append`, `exists_closing`: what is taken off behind it.
* `readTerm_eq_ok_iff`: the terms that are read from an evenly spaced text.
* `readGroups_eq_ok_iff`: the same for the groups of a condition.
-/

namespace TableClient.Condition

open Text

/-! ## The ends of a test -/

theorem BuiltIn.head_name_ne (function : BuiltIn) : function.name.toList.head? ≠ some 'N' := by
  cases function <;> decide

section
variable {test : Test} {text : List Char}

theorem Test.Valid.lead_chars (h : test.Valid) :
    test.lead ≠ [] ∧ ∀ c ∈ test.lead, isBlank c = false := by
  have hoperand : ∀ {operand : Operand}, operand.path.Valid →
      operand.write String.toList ≠ [] ∧ ∀ c ∈ operand.write String.toList, isBlank c = false := by
    intro operand hpath
    refine ⟨?_, fun c hc => (Operand.chars hpath c hc).1⟩
    rw [Operand.write]
    split_ifs
    · simp
    · exact hpath.write_ne_nil
  cases test with
  | compare operand => exact hoperand h.path
  | between operand => exact hoperand h.path
  | oneOf operand => exact hoperand h.path
  | call function =>
    exact ⟨function.name_chars.1, fun c hc => isBlank_of_isWordChar (function.name_chars.2 c hc)⟩

theorem Test.Valid.space_not_mem_lead (h : test.Valid) : ' ' ∉ test.lead := by
  intro hmem
  have hblank := h.lead_chars.2 ' ' hmem
  rw [isBlank_space] at hblank
  contradiction

/-- A test starts neither with a blank nor with a parenthesis. -/
theorem Test.Valid.exists_head (h : test.Valid) :
    ∃ c rest, test.lead = c :: rest ∧ isBlank c = false ∧ c ≠ '(' := by
  have hoperand : ∀ {operand : Operand}, operand.path.Valid →
      ∀ c rest, operand.write String.toList = c :: rest → c ≠ '(' := by
    intro operand hpath c rest hlead
    rw [Operand.write] at hlead
    split_ifs at hlead
    · obtain ⟨rfl, -⟩ := List.cons.inj hlead
      decide
    · have hdelimiter := (hpath.chars c (hlead ▸ List.mem_cons_self)).1
      rw [isDelimiter_eq_false_iff] at hdelimiter
      exact hdelimiter.2.1
  obtain ⟨c, rest, hlead⟩ := List.exists_cons_of_ne_nil h.lead_chars.1
  refine ⟨c, rest, hlead, h.lead_chars.2 c (hlead ▸ List.mem_cons_self), ?_⟩
  cases test with
  | compare operand => exact hoperand h.path c rest hlead
  | between operand => exact hoperand h.path c rest hlead
  | oneOf operand => exact hoperand h.path c rest hlead
  | call function =>
    have hname : function.name.toList = c :: rest := hlead
    rintro rfl
    exact function.paren_not_mem_name (hname ▸ List.mem_cons_self)

/-- A test starts with `NOT ` only if its operand is the word `NOT`. -/
theorem Test.Spelled.not_prefix_iff (h : test.Spelled text) (hvalid : test.Valid)
    (rest : List Char) : "NOT ".toList <+: text ++ rest ↔ test.lead = "NOT".toList := by
  obtain ⟨more, rfl⟩ := h.eq_lead_append
  constructor
  · rintro ⟨other, hother⟩
    rw [List.append_assoc, List.cons_append] at hother
    cases test with
    | call function path value? =>
      obtain ⟨c, name, hname⟩ := List.exists_cons_of_ne_nil hvalid.lead_chars.1
      rw [hname] at hother
      obtain ⟨rfl, -⟩ := List.cons.inj hother
      exact absurd (congrArg List.head? hname) function.head_name_ne
    | _ =>
      exact (append_mark_inj (x := "NOT".toList) (by decide) hvalid.space_not_mem_lead
        hother).1.symm
  · intro hlead
    have hlink : test.link = ' ' := by
      cases test with
      | call function => exact absurd (congrArg List.head? hlead) function.head_name_ne
      | _ => rfl
    rw [hlead, hlink]
    exact ⟨more ++ rest, by simp⟩

/-- A text with as many opening parentheses as closing ones. -/
def Balanced (text : List Char) : Prop := text.count '(' = text.count ')'

instance (text : List Char) : Decidable (Balanced text) :=
  inferInstanceAs (Decidable (text.count '(' = text.count ')'))

theorem Balanced.append {x y : List Char} (hx : Balanced x) (hy : Balanced y) :
    Balanced (x ++ y) := by
  rw [Balanced] at hx hy ⊢
  rw [List.count_append, List.count_append, hx, hy]

theorem balanced_of_forall (h : ∀ c ∈ text, c ≠ '(' ∧ c ≠ ')') : Balanced text := by
  have hopen : '(' ∉ text := fun hmem => (h _ hmem).1 rfl
  have hclose : ')' ∉ text := fun hmem => (h _ hmem).2 rfl
  rw [Balanced, List.count_eq_zero.mpr hopen, List.count_eq_zero.mpr hclose]

theorem balanced_of_delimiter (h : ∀ c ∈ text, isDelimiter c = false) : Balanced text := by
  refine balanced_of_forall fun c hc => ?_
  have hdelimiter := isDelimiter_eq_false_iff.mp (h c hc)
  exact ⟨hdelimiter.2.1, hdelimiter.2.2.1⟩

theorem Balanced.parenthesized (h : Balanced text) : Balanced ('(' :: (text ++ [')'])) := by
  rw [Balanced] at h ⊢
  simp [h]

theorem Operand.balanced {operand : Operand} (h : operand.path.Valid) :
    Balanced (operand.write String.toList) := by
  have hpath : Balanced (operand.path.write String.toList) :=
    balanced_of_delimiter fun c hc => (h.chars c hc).1
  rw [Operand.write]
  split_ifs
  · have hsize : "size(".toList ++ operand.path.write String.toList ++ [')'] =
        "size".toList ++ '(' :: (operand.path.write String.toList ++ [')']) := rfl
    rw [hsize]
    exact Balanced.append (by decide) hpath.parenthesized
  · exact hpath

/-- The parentheses of a test are balanced. -/
theorem Test.Spelled.balanced (h : test.Spelled text) (hvalid : test.Valid) : Balanced text := by
  have harguments : ∀ {inner : List Char} {texts : List (List Char)},
      (split ',' inner).map trim = texts →
      (∀ argument ∈ texts, argument ∈ test.path.write String.toList ::
        test.values.map String.toList) → Balanced inner := by
    intro inner texts hinner hmem
    refine balanced_of_forall fun c hc => ?_
    rcases mem_arguments hc with rfl | hblank | ⟨argument, hargument, hc⟩
    · decide
    · constructor <;> rintro rfl <;> revert hblank <;> decide
    · have hchars := (hvalid.argument_chars (hmem argument (hinner ▸ hargument))).2 c hc
      rw [isDelimiter_eq_false_iff] at hchars
      exact ⟨hchars.2.1, hchars.2.2.1⟩
  have hvalue : ∀ value ∈ test.values, Balanced value.toList := fun value hmem =>
    balanced_of_delimiter (hvalid.value_chars (List.mem_map_of_mem hmem)).2
  cases test with
  | compare operand comparator value =>
    rw [show text = _ from h, Test.write]
    have hsign : Balanced (' ' :: comparator.sign.toList) := by cases comparator <;> decide
    have hlast : Balanced (' ' :: value.toList) :=
      Balanced.append (x := [' ']) rfl (hvalue value (List.mem_singleton_self value))
    exact (Balanced.append (Operand.balanced hvalid.path) hsign).append hlast
  | between operand low high =>
    rw [show text = _ from h, Test.write]
    have hlow := hvalue low (by simp [Test.values])
    have hhigh := hvalue high (by simp [Test.values])
    exact ((((Operand.balanced hvalid.path).append (by decide)).append hlow).append
      (by decide)).append hhigh
  | oneOf operand values =>
    obtain ⟨inner, rfl, hinner⟩ := h
    have hlist := harguments hinner fun argument hmem => List.mem_cons_of_mem _ hmem
    have htext : operand.write String.toList ++ " IN (".toList ++ inner ++ [')'] =
        operand.write String.toList ++ " IN ".toList ++ ('(' :: (inner ++ [')'])) := by
      simp
    rw [htext]
    exact ((Operand.balanced hvalid.path).append (by decide)).append hlist.parenthesized
  | call function path value? =>
    obtain ⟨inner, rfl, hinner⟩ := h
    have hname : Balanced function.name.toList := by cases function <;> decide
    exact hname.append (harguments hinner fun argument hmem => hmem).parenthesized

/-- A test does not end with a blank. -/
theorem Test.Spelled.exists_last (h : test.Spelled text) (hvalid : test.Valid) :
    ∃ front c, text = front ++ [c] ∧ isBlank c = false := by
  have hvalue : ∀ value ∈ test.values, ∃ front c, value.toList = front ++ [c] ∧
      isBlank c = false := by
    intro value hmem
    obtain ⟨hne, hchars⟩ := hvalid.value_chars (List.mem_map_of_mem hmem)
    refine ⟨value.toList.dropLast, value.toList.getLast hne,
      (List.dropLast_append_getLast hne).symm, ?_⟩
    exact (isDelimiter_eq_false_iff.mp (hchars _ (List.getLast_mem hne))).1
  cases test with
  | compare operand comparator value =>
    obtain ⟨front, c, hlast, hblank⟩ := hvalue value (List.mem_singleton_self value)
    refine ⟨operand.write String.toList ++ ' ' :: comparator.sign.toList ++ ' ' :: front, c, ?_,
      hblank⟩
    rw [show text = _ from h, Test.write, hlast, List.append_assoc, List.append_assoc,
      List.append_assoc]
    rfl
  | between operand low high =>
    obtain ⟨front, c, hlast, hblank⟩ := hvalue high (by simp [Test.values])
    refine ⟨operand.write String.toList ++ " BETWEEN ".toList ++ low.toList ++ " AND ".toList ++
      front, c, ?_, hblank⟩
    rw [show text = _ from h, Test.write, hlast, ← List.append_assoc]
  | oneOf operand values =>
    obtain ⟨inner, rfl, -⟩ := h
    exact ⟨_, ')', rfl, by decide⟩
  | call function path value? =>
    obtain ⟨inner, rfl, -⟩ := h
    exact ⟨function.name.toList ++ '(' :: inner, ')', by simp, by decide⟩

end

/-! ## Openings -/

/-- What may stand before a test: parentheses and `NOT`s, with the parity of the `NOT`s. -/
inductive Opening : Bool → List Char → Prop
  | nil : Opening false []
  | paren {negated : Bool} {opening : List Char} (h : Opening negated opening) :
    Opening negated ('(' :: opening)
  | space {negated : Bool} {opening : List Char} (h : Opening negated opening) :
    Opening negated ('(' :: ' ' :: opening)
  | not {negated : Bool} {opening : List Char} (h : Opening negated opening) :
    Opening (!negated) ("NOT ".toList ++ opening)

theorem Opening.append {negated other : Bool} {opening more : List Char}
    (h : Opening negated opening) (hmore : Opening other more) :
    Opening (negated ^^ other) (opening ++ more) := by
  induction h with
  | nil => simpa using hmore
  | paren _ ih => exact ih.paren
  | space _ ih => exact ih.space
  | not _ ih =>
    rw [Bool.not_xor, List.append_assoc]
    exact ih.not

theorem Opening.spaced_append {negated : Bool} {opening text : List Char}
    (h : Opening negated opening) (htext : Spaced text) : Spaced (opening ++ text) := by
  induction h with
  | nil => exact htext
  | paren _ ih => exact .next (by decide) ih
  | space _ ih => exact .space (by decide) ih
  | not _ ih => exact .next (by decide) (.next (by decide) (.space (by decide) ih))

theorem Opening.sign_not_mem {negated : Bool} {opening : List Char} (h : Opening negated opening) :
    '#' ∉ opening := by
  induction h with
  | nil => exact List.not_mem_nil
  | paren _ ih => simpa using ih
  | space _ ih => simpa using ih
  | not _ ih => simpa using ih

/-- Nothing is taken off in front of a text that starts otherwise. -/
theorem peelOpening_stop {after : Bool} {c : Char} {text : List Char} (hparen : c ≠ '(')
    (hblank : isBlank c = false) (hnot : ¬ "NOT ".toList <+: c :: text) :
    peelOpening after (c :: text) = (false, c :: text) := by
  rw [peelOpening]
  · simp [hblank]
  · exact hparen
  · rintro rest rfl rfl
    exact hnot ⟨rest, rfl⟩

theorem peelOpening_space (text : List Char) :
    peelOpening true (' ' :: text) = peelOpening true text := by
  rw [peelOpening]
  · simp [isBlank_space]
  · decide
  · intro rest hn
    exact absurd hn (by decide)

/-- An opening is taken off in front of a test. -/
theorem peelOpening_append {negated after : Bool} {opening : List Char} {c : Char}
    {text : List Char} (h : Opening negated opening) (hparen : c ≠ '(')
    (hblank : isBlank c = false) (hnot : ¬ "NOT ".toList <+: c :: text) :
    peelOpening after (opening ++ c :: text) = (negated, c :: text) := by
  induction h generalizing after with
  | nil => exact peelOpening_stop hparen hblank hnot
  | paren _ ih => exact ih
  | space _ ih =>
    rw [List.cons_append, peelOpening, List.cons_append, peelOpening_space, ih]
  | @not negated opening _ ih =>
    show peelOpening after ('N' :: 'O' :: 'T' :: ' ' :: (opening ++ c :: text)) = _
    rw [peelOpening, ih]

/-- What is taken off in front of an evenly spaced text is an opening, and what is left does not
    start with one. -/
theorem exists_opening {after : Bool} {text : List Char} (h : Spaced text) :
    ∃ opening, text = opening ++ (peelOpening after text).2 ∧
      Opening (peelOpening after text).1 opening ∧
      ((peelOpening after text).2 = [] ∨ Spaced (peelOpening after text).2) ∧
      ¬ "NOT ".toList <+: (peelOpening after text).2 := by
  induction hlen : text.length using Nat.strong_induction_on generalizing after text with
  | _ n ih =>
    obtain ⟨c, tail, rfl⟩ := List.exists_cons_of_ne_nil h.ne_nil
    rw [List.length_cons] at hlen
    by_cases hparen : c = '('
    · subst hparen
      rw [peelOpening]
      cases h with
      | last => exact ⟨['('], rfl, .paren .nil, .inl rfl, by decide⟩
      | next _ h =>
        obtain ⟨opening, htext, hopening, hrest⟩ := @ih tail.length (by omega) true tail h rfl
        exact ⟨'(' :: opening, congrArg ('(' :: ·) htext, hopening.paren, hrest⟩
      | @space _ tail _ h =>
        rw [List.length_cons] at hlen
        obtain ⟨opening, htext, hopening, hrest⟩ := @ih tail.length (by omega) true tail h rfl
        rw [peelOpening_space]
        exact ⟨'(' :: ' ' :: opening, congrArg ('(' :: ' ' :: ·) htext, hopening.space, hrest⟩
    · by_cases hnot : "NOT ".toList <+: c :: tail
      · obtain ⟨rest, hrest⟩ := hnot
        have htext : 'N' :: 'O' :: 'T' :: ' ' :: rest = c :: tail := hrest
        rw [← htext] at h ⊢
        have hspaced : Spaced rest := by
          cases h with
          | next _ h =>
            cases h with
            | next _ h =>
              cases h with
              | next _ h => exact absurd h.head_not_blank (by simp [isBlank_space])
              | space _ h => exact h
        have hlength := congrArg List.length htext
        simp only [List.length_cons] at hlength
        obtain ⟨opening, hrest, hopening, hleft⟩ :=
          @ih rest.length (by omega) false rest hspaced rfl
        rw [peelOpening]
        exact ⟨"NOT ".toList ++ opening, congrArg ("NOT ".toList ++ ·) hrest, hopening.not, hleft⟩
      · rw [peelOpening_stop hparen h.head_not_blank hnot]
        exact ⟨[], rfl, .nil, .inr h, hnot⟩

/-! ## Closings -/

/-- What may stand behind a test: closing parentheses. -/
inductive Closing : List Char → Prop
  | nil : Closing []
  | paren {closing : List Char} (h : Closing closing) : Closing (closing ++ [')'])
  | space {closing : List Char} (h : Closing closing) : Closing (closing ++ [' ', ')'])

theorem Closing.append {closing more : List Char} (h : Closing closing) (hmore : Closing more) :
    Closing (closing ++ more) := by
  induction hmore with
  | nil => simpa using h
  | paren _ ih =>
    rw [← List.append_assoc]
    exact ih.paren
  | space _ ih =>
    rw [← List.append_assoc]
    exact ih.space

theorem Closing.spaced_append {closing text : List Char} (h : Closing closing)
    (htext : Spaced text) : Spaced (text ++ closing) := by
  induction h with
  | nil => simpa using htext
  | paren _ ih =>
    rw [← List.append_assoc]
    exact ih.append (.last (by decide))
  | space _ ih =>
    rw [← List.append_assoc]
    exact ih.append_space (.last (by decide))

theorem Closing.chars {closing : List Char} (h : Closing closing) :
    ∀ c ∈ closing, c = ' ' ∨ c = ')' := by
  induction h with
  | nil => simp
  | paren _ ih =>
    intro c hc
    rcases List.mem_append.mp hc with hc | hc
    · exact ih c hc
    · exact .inr (List.mem_singleton.mp hc)
  | space _ ih =>
    intro c hc
    rcases List.mem_append.mp hc with hc | hc
    · exact ih c hc
    · simpa using hc

theorem peelClosing_space (excess : Nat) (text : List Char) :
    peelClosing excess true (' ' :: text) = peelClosing excess true text := by
  simp [peelClosing, isBlank_space]

theorem peelClosing_append {closing : List Char} (h : Closing closing) (after : Bool) {c : Char}
    (hblank : isBlank c = false) (text : List Char) :
    peelClosing (closing.count ')') after (closing.reverse ++ c :: text) = c :: text := by
  induction h generalizing after with
  | nil => simp [peelClosing, hblank]
  | @paren closing _ ih =>
    have hcount : (closing ++ [')']).count ')' = closing.count ')' + 1 := by simp
    rw [hcount, List.reverse_append, List.reverse_singleton, List.singleton_append,
      List.cons_append, peelClosing, if_pos ⟨rfl, Nat.succ_pos _⟩]
    exact ih true
  | @space closing _ ih =>
    have hcount : (closing ++ [' ', ')']).count ')' = closing.count ')' + 1 := by simp
    have hreverse : (closing ++ [' ', ')']).reverse = ')' :: ' ' :: closing.reverse := by simp
    rw [hcount, hreverse, List.cons_append, peelClosing, if_pos ⟨rfl, Nat.succ_pos _⟩,
      List.cons_append, peelClosing_space]
    exact ih true

/-- The closing parentheses behind a test are told from its own. -/
theorem dropClosing_append {core front closing : List Char} {c : Char} (hbalanced : Balanced core)
    (hlast : core = front ++ [c]) (hblank : isBlank c = false) (h : Closing closing) :
    dropClosing (core ++ closing) = core := by
  have hopen : closing.count '(' = 0 := by
    refine List.count_eq_zero.mpr fun hmem => ?_
    rcases h.chars _ hmem with hc | hc <;> revert hc <;> decide
  have hexcess : (core ++ closing).count ')' - (core ++ closing).count '(' = closing.count ')' := by
    rw [Balanced] at hbalanced
    rw [List.count_append, List.count_append, hopen, hbalanced]
    omega
  have hreverse : (core ++ closing).reverse = closing.reverse ++ c :: front.reverse := by
    rw [hlast]
    simp
  rw [dropClosing, hexcess, hreverse, peelClosing_append h false hblank, hlast]
  simp

/-- What is taken off behind an evenly spaced text is a closing. -/
theorem exists_closing {text : List Char} (h : Spaced text) :
    ∃ closing, text = dropClosing text ++ closing ∧ Closing closing := by
  have hpeel : ∀ {reversed : List Char} (excess : Nat) (after : Bool), Spaced reversed →
      ∃ closing, reversed = closing.reverse ++ peelClosing excess after reversed ∧
        Closing closing := by
    intro reversed excess after hspaced
    induction hspaced generalizing excess after with
    | @last c hc =>
      rw [peelClosing]
      split_ifs with hparen hafter
      · exact ⟨[')'], by simp [peelClosing, hparen.1], Closing.paren .nil⟩
      · simp [hc] at hafter
      · exact ⟨[], rfl, .nil⟩
    | @next c rest hc _ ih =>
      rw [peelClosing]
      split_ifs with hparen hafter
      · obtain ⟨closing, hrest, hclosing⟩ := ih (excess - 1) true
        refine ⟨closing ++ [')'], ?_, hclosing.paren⟩
        rw [List.reverse_append, List.reverse_singleton, List.singleton_append, List.cons_append,
          ← hrest, hparen.1]
      · simp [hc] at hafter
      · exact ⟨[], rfl, .nil⟩
    | @space c rest hc _ ih =>
      rw [peelClosing]
      split_ifs with hparen hafter
      · obtain ⟨closing, hrest, hclosing⟩ := ih (excess - 1) true
        have hreverse : (closing ++ [' ', ')']).reverse = ')' :: ' ' :: closing.reverse := by simp
        refine ⟨closing ++ [' ', ')'], ?_, hclosing.space⟩
        rw [peelClosing_space, hreverse, List.cons_append, List.cons_append, ← hrest, hparen.1]
      · simp [hc] at hafter
      · exact ⟨[], rfl, .nil⟩
  obtain ⟨closing, htext, hclosing⟩ :=
    hpeel (text.count ')' - text.count '(') false h.reverse
  refine ⟨closing, ?_, hclosing⟩
  have hreverse := congrArg List.reverse htext
  rwa [List.reverse_reverse, List.reverse_append, List.reverse_reverse] at hreverse

/-! ## Terms -/

/-- A term that can be written. -/
structure Term.Valid (term : Term) : Prop where
  opening : Opening term.negated term.opening
  test : term.test.Valid
  /-- Else the operand would be read as a `NOT`. -/
  lead : term.test.lead ≠ "NOT".toList
  closing : Closing term.closing

/-- Whether a text is a term. -/
def Term.Spelled (text : List Char) (term : Term) : Prop :=
  term.Valid ∧ ∃ core, term.test.Spelled core ∧ text = term.opening ++ core ++ term.closing

theorem Term.Valid.spelled_write {term : Term} (h : term.Valid) :
    term.Spelled (term.write String.toList) :=
  ⟨h, term.test.write String.toList, h.test.spelled_write, rfl⟩

section
variable {bound : List String} {text : List Char} {term : Term}

/-- What is read from an evenly spaced text is a term that the text is. -/
theorem spelled_of_readTerm (hspaced : Spaced text) (h : readTerm bound text = .ok term) :
    term.Spelled text ∧ Fresh bound term.values := by
  obtain ⟨opening, htext, hopening, hrest, hnot⟩ := @exists_opening false text hspaced
  rw [readTerm] at h
  generalize peelOpening false text = peeled at h htext hopening hrest hnot
  obtain ⟨negated, rest⟩ := peeled
  simp only at h htext hopening hrest hnot
  split_ifs at h with hempty
  simp only [bind_eq_ok_iff, pure, Except.pure, Except.ok.injEq] at h
  obtain ⟨raw, hshape, test, hread, rfl⟩ := h
  obtain ⟨hpath, hfresh, rfl⟩ := RawTest.read_eq_ok_iff.mp hread
  obtain ⟨hspelled, hcount⟩ := (readShape_eq_ok_iff hpath hfresh.valid).mp hshape
  have hvalid : test.Valid := ⟨hpath, hfresh.valid, hcount⟩
  have hrest : Spaced rest := by
    rcases hrest with rfl | hrest
    · exact absurd rfl hempty
    · exact hrest
  obtain ⟨closing, hclosing, hclosed⟩ := exists_closing hrest
  have htake : text.take (text.length - rest.length) = opening := by
    rw [htext]
    simp
  have hdrop : rest.drop (dropClosing rest).length = closing :=
    (congrArg (List.drop (dropClosing rest).length) hclosing).trans List.drop_left
  rw [htake, hdrop]
  refine ⟨⟨⟨hopening, hvalid, fun hlead => hnot ?_, hclosed⟩, dropClosing rest, hspelled, ?_⟩,
    hfresh⟩
  · rw [hclosing]
    exact (hspelled.not_prefix_iff hvalid closing).mpr hlead
  · rw [List.append_assoc, ← hclosing, ← htext]

/-- A term is read from a text that it is, if its value placeholders are new. -/
theorem Term.Spelled.readTerm_eq (h : term.Spelled text) (hfresh : Fresh bound term.values) :
    readTerm bound text = .ok term := by
  obtain ⟨hvalid, core, hspelled, htext⟩ := h
  obtain ⟨opening, negated, test, closing⟩ := term
  simp only at hspelled htext
  have htest : test.Valid := hvalid.test
  obtain ⟨front, last, hlast, hblank⟩ := hspelled.exists_last htest
  have hdrop : dropClosing (core ++ closing) = core :=
    dropClosing_append (hspelled.balanced htest) hlast hblank hvalid.closing
  have hpeel : peelOpening false text = (negated, core ++ closing) := by
    have hnot : ¬ "NOT ".toList <+: core ++ closing := fun hnot =>
      hvalid.lead ((hspelled.not_prefix_iff htest closing).mp hnot)
    obtain ⟨c, rest, hlead, hhead, hparen⟩ := htest.exists_head
    obtain ⟨more, hcore⟩ := hspelled.eq_lead_append
    rw [htext, List.append_assoc]
    rw [hcore, hlead] at hnot ⊢
    exact peelOpening_append hvalid.opening hparen hhead hnot
  have hread : test.raw.read bound = .ok test :=
    RawTest.read_eq_ok_iff.mpr ⟨htest.path, hfresh, rfl⟩
  have hne : core.isEmpty = false := by simp [hlast]
  rw [readTerm, hpeel]
  simp only [hdrop, hne, hspelled.readShape_eq htest, bind, Except.bind, hread, pure, Except.pure,
    htext]
  simp

/-- The terms that are read from an evenly spaced text are those that the text is, if their value
    placeholders are new. -/
theorem readTerm_eq_ok_iff (hspaced : Spaced text) :
    readTerm bound text = .ok term ↔ term.Spelled text ∧ Fresh bound term.values :=
  ⟨spelled_of_readTerm hspaced, fun h => h.1.readTerm_eq h.2⟩

end

/-! ## Conditions -/

/-- The terms that are read from the texts of a group. -/
theorem readGroup_eq_ok_iff {bound : List String} {texts : List (List Char)} {group : List Term}
    (hspaced : ∀ text ∈ texts, Spaced text) :
    readGroup bound texts = .ok group ↔
      List.Forall₂ Term.Spelled texts group ∧ Fresh bound (group.flatMap Term.values) := by
  induction texts generalizing bound group with
  | nil =>
    rw [readGroup, List.forall₂_nil_left_iff]
    constructor
    · intro h
      obtain rfl := Except.ok.inj h
      exact ⟨rfl, fresh_nil bound⟩
    · rintro ⟨rfl, -⟩
      rfl
  | cons text texts ih =>
    have hrest : ∀ other ∈ texts, Spaced other := fun other hother =>
      hspaced other (List.mem_cons_of_mem text hother)
    simp only [readGroup, bind_eq_ok_iff, readTerm_eq_ok_iff (hspaced text List.mem_cons_self),
      ih hrest, pure, Except.pure, Except.ok.injEq]
    rw [List.forall₂_cons_left_iff]
    constructor
    · rintro ⟨term, ⟨hterm, hfresh⟩, group, ⟨hgroup, hmore⟩, rfl⟩
      exact ⟨⟨term, group, hterm, hgroup, rfl⟩, fresh_append_iff.mpr ⟨hfresh, hmore⟩⟩
    · rintro ⟨⟨term, group, hterm, hgroup, rfl⟩, hfresh⟩
      obtain ⟨hfresh, hmore⟩ := fresh_append_iff.mp hfresh
      exact ⟨term, ⟨hterm, hfresh⟩, group, ⟨hgroup, hmore⟩, rfl⟩

/-- The terms that are read from the texts of a condition. -/
theorem readGroups_eq_ok_iff {bound : List String} {texts : List (List (List Char))}
    {groups : List (List Term)} (hspaced : ∀ group ∈ texts, ∀ text ∈ group, Spaced text) :
    readGroups bound texts = .ok groups ↔
      List.Forall₂ (List.Forall₂ Term.Spelled) texts groups ∧
        Fresh bound (groups.flatten.flatMap Term.values) := by
  induction texts generalizing bound groups with
  | nil =>
    rw [readGroups, List.forall₂_nil_left_iff]
    constructor
    · intro h
      obtain rfl := Except.ok.inj h
      exact ⟨rfl, fresh_nil bound⟩
    · rintro ⟨rfl, -⟩
      rfl
  | cons group texts ih =>
    have hrest : ∀ other ∈ texts, ∀ text ∈ other, Spaced text := fun other hother =>
      hspaced other (List.mem_cons_of_mem group hother)
    simp only [readGroups, bind_eq_ok_iff,
      readGroup_eq_ok_iff (hspaced group List.mem_cons_self), ih hrest, pure, Except.pure,
      Except.ok.injEq]
    rw [List.forall₂_cons_left_iff]
    constructor
    · rintro ⟨terms, ⟨hterms, hfresh⟩, groups, ⟨hgroups, hmore⟩, rfl⟩
      rw [List.flatten_cons, List.flatMap_append]
      exact ⟨⟨terms, groups, hterms, hgroups, rfl⟩, fresh_append_iff.mpr ⟨hfresh, hmore⟩⟩
    · rintro ⟨⟨terms, groups, hterms, hgroups, rfl⟩, hfresh⟩
      rw [List.flatten_cons, List.flatMap_append] at hfresh
      obtain ⟨hfresh, hmore⟩ := fresh_append_iff.mp hfresh
      exact ⟨terms, ⟨hterms, hfresh⟩, groups, ⟨hgroups, hmore⟩, rfl⟩

/-! ## Written terms -/

section
variable {test : Test}

theorem Test.Valid.spaced_lead (h : test.Valid) : Spaced test.lead :=
  .of_not_blank h.lead_chars.1 h.lead_chars.2

theorem Test.Valid.spaced_value (h : test.Valid) : ∀ value ∈ test.values, Spaced value.toList := by
  intro value hmem
  obtain ⟨hne, hchars⟩ := h.value_chars (List.mem_map_of_mem hmem)
  exact .of_not_blank hne fun c hc => (isDelimiter_eq_false_iff.mp (hchars c hc)).1

/-- A list of arguments is written as an evenly spaced text. -/
theorem spaced_arguments {texts : List (List Char)} (hne : texts ≠ [])
    (h : ∀ text ∈ texts, Spaced text) : Spaced (join [',', ' '] texts) := by
  induction texts with
  | nil => exact absurd rfl hne
  | cons text texts ih =>
    have htext := h text List.mem_cons_self
    by_cases hnil : texts = []
    · subst hnil
      exact htext
    · have hcomma : join [',', ' '] (text :: texts) =
          (text ++ [',']) ++ ' ' :: join [',', ' '] texts := by
        rw [join_cons hnil]
        simp
      rw [hcomma]
      exact (htext.append (.last (by decide))).append_space
        (ih hnil fun other hother => h other (List.mem_cons_of_mem text hother))

theorem spaced_parenthesized {text : List Char} (h : Spaced text) :
    Spaced ('(' :: (text ++ [')'])) :=
  .next (by decide) (h.append (.last (by decide)))

/-- A test is written as an evenly spaced text. -/
theorem Test.Valid.spaced_write (h : test.Valid) : Spaced (test.write String.toList) := by
  have hlead := h.spaced_lead
  have hvalue := h.spaced_value
  have hpath : Spaced (test.path.write String.toList) :=
    .of_not_blank h.path.write_ne_nil fun c hc =>
      (isDelimiter_eq_false_iff.mp (h.path.chars c hc).1).1
  have hword : ∀ {word : List Char}, word ≠ [] → word.all isWordChar = true → Spaced word :=
    fun hne hchars => .of_not_blank hne fun c hc =>
      isBlank_of_isWordChar (List.all_eq_true.mp hchars c hc)
  have hbetween : Spaced "BETWEEN".toList := hword (by decide) rfl
  have hand : Spaced "AND".toList := hword (by decide) rfl
  have hin : Spaced "IN".toList := hword (by decide) rfl
  cases test with
  | compare operand comparator value =>
    have hsign : Spaced comparator.sign.toList := by
      refine .of_not_blank ?_ ?_ <;> cases comparator <;>
        simp [Comparator.sign, isBlank, blankRanges]
    rw [Test.write]
    exact (hlead.append_space hsign).append_space (hvalue value (List.mem_singleton_self value))
  | between operand low high =>
    have hwrite : (Test.between operand low high).write String.toList =
        operand.write String.toList ++ ' ' :: ("BETWEEN".toList ++ ' ' :: (low.toList ++
          ' ' :: ("AND".toList ++ ' ' :: high.toList))) := by
      simp [Test.write]
    have hlow := hvalue low (by simp [Test.values])
    have hhigh := hvalue high (by simp [Test.values])
    rw [hwrite]
    exact hlead.append_space
      (hbetween.append_space (hlow.append_space (hand.append_space hhigh)))
  | oneOf operand values =>
    have hwrite : (Test.oneOf operand values).write String.toList =
        operand.write String.toList ++ ' ' :: ("IN".toList ++
          ' ' :: ('(' :: (join [',', ' '] (values.map String.toList) ++ [')']))) := by
      simp [Test.write]
    have hne : values.map String.toList ≠ [] := by
      simpa using List.length_pos_iff.mp (show 0 < values.length from h.count)
    have hlist := spaced_arguments hne (List.forall_mem_map.mpr hvalue)
    rw [hwrite]
    exact hlead.append_space (hin.append_space (spaced_parenthesized hlist))
  | call function path value? =>
    have harguments : Spaced (join [',', ' ']
        (path.write String.toList :: value?.toList.map String.toList)) := by
      refine spaced_arguments (List.cons_ne_nil _ _) ?_
      rw [List.forall_mem_cons, List.forall_mem_map]
      exact ⟨hpath, hvalue⟩
    have hwrite : (Test.call function path value?).write String.toList = function.name.toList ++
        '(' :: (join [',', ' '] (path.write String.toList :: value?.toList.map String.toList) ++
          [')']) := by
      cases value? <;> simp [Test.write, join]
    rw [hwrite]
    exact hlead.append (spaced_parenthesized harguments)

end

theorem Term.Valid.spaced_write {term : Term} (h : term.Valid) :
    Spaced (term.write String.toList) := by
  rw [Term.write, List.append_assoc]
  exact h.opening.spaced_append (h.closing.spaced_append h.test.spaced_write)

/-- The text of a term and the one it is written as differ in their blanks only. -/
theorem Term.Spelled.squeeze_eq {text : List Char} {term : Term} (h : term.Spelled text) :
    squeeze text = squeeze (term.write String.toList) := by
  obtain ⟨-, core, hspelled, rfl⟩ := h
  simp only [Term.write, squeeze_append, hspelled.squeeze_eq]

/-- Valid terms are read back from what they are written as. -/
theorem readGroups_write {bound : List String} {groups : List (List Term)}
    (hvalid : ∀ group ∈ groups, ∀ term ∈ group, term.Valid)
    (hfresh : Fresh bound (groups.flatten.flatMap Term.values)) :
    readGroups bound (groups.map (List.map (Term.write String.toList))) = .ok groups := by
  have hspaced : ∀ texts ∈ groups.map (List.map (Term.write String.toList)),
      ∀ text ∈ texts, Spaced text := by
    intro texts htexts text htext
    obtain ⟨group, hgroup, rfl⟩ := List.mem_map.mp htexts
    obtain ⟨term, hterm, rfl⟩ := List.mem_map.mp htext
    exact (hvalid group hgroup term hterm).spaced_write
  refine (readGroups_eq_ok_iff hspaced).mpr ⟨?_, hfresh⟩
  rw [List.forall₂_map_left_iff]
  refine List.forall₂_same.mpr fun group hgroup => ?_
  rw [List.forall₂_map_left_iff]
  exact List.forall₂_same.mpr fun term hterm => (hvalid group hgroup term hterm).spelled_write

end TableClient.Condition
