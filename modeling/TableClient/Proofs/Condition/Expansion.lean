import Mathlib
import TableClient.Condition.Compiled
import TableClient.Proofs.Condition.Terms
import TableClient.Proofs.Dict

/-!
# Expanding a compiled condition

Expansion reads a text from left to right and puts names in place of placeholders. A placeholder is
a number sign and the longest run of word characters behind it, so it is read as a whole only where
no word character follows; in a written condition this is so, since a name is followed by a
subscript, a dot, a space, a parenthesis or a comma.

Results:
* `placeholderOf_injective`: the placeholder of a name that is there stands for this name only.
* `expandFrom_placeholder`: a placeholder with no word character behind it is replaced.
* `expand_compiled`: the expansion of a compiled condition is the condition written with its names.
-/

namespace TableClient.Condition

open Text

/-! ## Placeholders of names -/

theorem placeholder_injective {m n : Nat} (h : placeholder m = placeholder n) : m = n := by
  simp only [placeholder, Nat.toString_eq_repr] at h
  exact Nat.repr_inj.mp ((String.append_right_inj _).mp h)

/-- The placeholder of a name that is there stands for this name only. -/
theorem placeholderOf_injective {names : List String} {name other : String}
    (hname : name ∈ names) (h : placeholderOf names name = placeholderOf names other) :
    name = other :=
  (List.idxOf_inj hname).mp (placeholder_injective h)

theorem isWordChar_of_mem_toDigits {place : Nat} {c : Char} (h : c ∈ Nat.toDigits 10 place) :
    isWordChar c = true := by
  have hdigit := Nat.isDigit_of_mem_toDigits (b := 10) (by decide) (by decide) h
  simp [isWordChar, Char.isAlphanum, hdigit]

/-- A placeholder is a number sign and word characters. -/
theorem exists_toList_placeholder (place : Nat) : ∃ word : List Char,
    (placeholder place).toList = '#' :: word ∧ ∀ c ∈ word, isWordChar c = true := by
  refine ⟨'n' :: Nat.toDigits 10 place, ?_,
    List.forall_mem_cons.mpr ⟨by decide, fun c hc => isWordChar_of_mem_toDigits hc⟩⟩
  simp [placeholder, Nat.repr_eq_ofList_toDigits]

theorem get?_insertAll_of_mem {α : Type} {d : Dict α} {entries : List (String × α)} {name : String}
    {value : α} (hmem : (name, value) ∈ entries ∨ Dict.get? d name = some value)
    (hunique : ∀ other, (name, other) ∈ entries → other = value) :
    Dict.get? (Dict.insertAll d entries) name = some value := by
  induction entries generalizing d with
  | nil => simpa [Dict.insertAll] using hmem
  | cons entry entries ih =>
    obtain ⟨key, first⟩ := entry
    refine ih ?_ fun other hother => hunique other (List.mem_cons_of_mem _ hother)
    simp only [Dict.get?_insert]
    by_cases hkey : name = key
    · subst hkey
      rw [if_pos rfl, hunique first List.mem_cons_self]
      exact .inr rfl
    · rw [if_neg hkey]
      rcases hmem with hmem | hmem
      · rcases List.mem_cons.mp hmem with heq | hmem
        · exact absurd (Prod.mk.inj heq).1 hkey
        · exact .inl hmem
      · exact .inr hmem

/-- What is made of entries in which no name has two values. -/
theorem get?_ofList_eq_some_iff {α : Type} {entries : List (String × α)}
    (hunique : ∀ name value other, (name, value) ∈ entries → (name, other) ∈ entries →
      value = other) {name : String} {value : α} :
    Dict.get? (Dict.ofList entries) name = some value ↔ (name, value) ∈ entries := by
  refine ⟨fun h => ?_, fun h => ?_⟩
  · exact (Dict.mem_of_mem_insertAll (Dict.mem_of_get? h)).resolve_left List.not_mem_nil
  · exact get?_insertAll_of_mem (.inl h) fun other hother => hunique name other value hother h

/-- The order of such entries, and how often one of them comes, do not matter. -/
theorem ofList_congr {α : Type} {entries others : List (String × α)}
    (hmem : ∀ entry, entry ∈ entries ↔ entry ∈ others)
    (hunique : ∀ name value other, (name, value) ∈ others → (name, other) ∈ others →
      value = other) : Dict.ofList entries = Dict.ofList others := by
  have hunique' : ∀ name value other, (name, value) ∈ entries → (name, other) ∈ entries →
      value = other := fun name value other h h' =>
    hunique name value other ((hmem _).mp h) ((hmem _).mp h')
  refine Dict.Sorted.ext (Dict.sorted_ofList _) (Dict.sorted_ofList _) fun name => ?_
  refine Option.ext fun value => ?_
  rw [get?_ofList_eq_some_iff hunique', get?_ofList_eq_some_iff hunique, hmem]

/-! ## Expansion -/

section
variable {names : Dict String}

theorem expandFrom_append {text : List Char} (h : '#' ∉ text) (rest : List Char) :
    Compiled.expandFrom names none (text ++ rest) =
      text ++ Compiled.expandFrom names none rest := by
  induction text with
  | nil => rfl
  | cons c text ih =>
    obtain ⟨hc, htext⟩ := List.ne_and_not_mem_of_not_mem_cons h
    rw [List.cons_append, Compiled.expandFrom]
    simp only [hc.symm, ↓reduceIte, ih htext, List.cons_append]

/-- A placeholder with no word character behind it is replaced. -/
theorem expandFrom_placeholder {placeholder name : String} {word : List Char}
    (hplaceholder : placeholder.toList = '#' :: word) (hword : ∀ c ∈ word, isWordChar c = true)
    (hname : Dict.get? names placeholder = some name) {rest : List Char}
    (hrest : ∀ c ∈ rest.head?, isWordChar c = false) :
    Compiled.expandFrom names none (placeholder.toList ++ rest) =
      name.toList ++ Compiled.expandFrom names none rest := by
  have hread : ∀ read word, (∀ c ∈ word, isWordChar c = true) →
      Compiled.expandFrom names (some read) (word ++ rest) =
        Compiled.resolve names (word.reverse ++ read) ++ Compiled.expandFrom names none rest := by
    intro read word hword
    induction word generalizing read with
    | nil =>
      cases rest with
      | nil => simp [Compiled.expandFrom]
      | cons c rest =>
        have hc := hrest c rfl
        rw [List.nil_append, Compiled.expandFrom, Compiled.expandFrom]
        simp only [hc, Bool.false_eq_true, ↓reduceIte, List.reverse_nil, List.nil_append]
        split_ifs <;> rfl
    | cons c word ih =>
      rw [List.cons_append, Compiled.expandFrom]
      simp only [hword c List.mem_cons_self, ↓reduceIte]
      rw [ih (c :: read) fun d hd => hword d (List.mem_cons_of_mem c hd), List.reverse_cons,
        List.append_assoc]
      rfl
  have hresolve : Compiled.resolve names (word.reverse ++ []) = name.toList := by
    have hself : String.ofList ('#' :: word) = placeholder := by
      rw [← hplaceholder, String.ofList_toList]
    rw [Compiled.resolve, List.append_nil, List.reverse_reverse, hself, hname]
    rfl
  rw [hplaceholder, List.cons_append, Compiled.expandFrom]
  simp only [↓reduceIte]
  rw [hread [] word hword, hresolve]

/-- Whether a text is expanded to another one, whatever stands behind it. -/
def Expands (names : Dict String) (text expanded : List Char) : Prop :=
  ∀ rest, Compiled.expandFrom names none (text ++ rest) =
    expanded ++ Compiled.expandFrom names none rest

theorem expands_self {text : List Char} (h : '#' ∉ text) : Expands names text text :=
  expandFrom_append h

theorem Expands.append {text more expanded others : List Char} (h : Expands names text expanded)
    (hmore : Expands names more others) : Expands names (text ++ more) (expanded ++ others) := by
  intro rest
  rw [List.append_assoc, h, hmore, List.append_assoc]

theorem Expands.join {link : List Char} (hlink : '#' ∉ link) {α : Type} {items : List α}
    {write expanded : α → List Char}
    (h : ∀ item ∈ items, Expands names (write item) (expanded item)) :
    Expands names (Text.join link (items.map write)) (Text.join link (items.map expanded)) := by
  induction items with
  | nil => exact expands_self (by simp [Text.join])
  | cons item items ih =>
    have hitem := h item List.mem_cons_self
    by_cases hnil : items = []
    · subst hnil
      exact hitem
    · rw [List.map_cons, List.map_cons, join_cons (by simpa using hnil),
        join_cons (by simpa using hnil)]
      exact (hitem.append (expands_self hlink)).append
        (ih fun other hother => h other (List.mem_cons_of_mem item hother))

end

/-! ## Expansion of what is written -/

/-- Whether the placeholder that a name is spelled as is known, and stands for what another
    spelling gives. -/
structure Knows (names : Dict String) (spell target : String → List Char) (name : String) :
    Prop where
  spelled : ∃ placeholder word value, spell name = placeholder.toList ∧
    placeholder.toList = '#' :: word ∧ (∀ c ∈ word, isWordChar c = true) ∧
    Dict.get? names placeholder = some value ∧ value.toList = target name

section
variable {names : Dict String} {spell target : String → List Char}

/-- A path is expanded where no word character stands behind it. -/
theorem expandFrom_path {path : Path} (hpath : path.Valid)
    (hknows : ∀ segment ∈ path, Knows names spell target segment.name) {rest : List Char}
    (hrest : ∀ c ∈ rest.head?, isWordChar c = false) :
    Compiled.expandFrom names none (path.write spell ++ rest) =
      path.write target ++ Compiled.expandFrom names none rest := by
  have hsegment : ∀ segment ∈ path, ∀ rest : List Char, (∀ c ∈ rest.head?, isWordChar c = false) →
      Compiled.expandFrom names none (segment.write spell ++ rest) =
        segment.write target ++ Compiled.expandFrom names none rest := by
    intro segment hmem rest hrest
    obtain ⟨placeholder, word, value, hspell, hplaceholder, hword, hname, hvalue⟩ :=
      (hknows segment hmem).spelled
    have hsubscripts := (hpath.segments segment hmem).subscripts
    have hsign : '#' ∉ segment.subscripts := fun hmem => by
      have := hsubscripts.chars '#' hmem
      revert this
      decide
    have hhead : ∀ c ∈ (segment.subscripts ++ rest).head?, isWordChar c = false := by
      rcases hsubscripts.eq_nil_or_eq_cons with hnil | ⟨more, hcons⟩
      · rwa [hnil]
      · intro c hc
        obtain rfl : '[' = c := by simpa [hcons] using hc
        decide
    rw [Segment.write, Segment.write, List.append_assoc, hspell,
      expandFrom_placeholder hplaceholder hword hname hhead, expandFrom_append hsign, hvalue,
      List.append_assoc]
  clear hpath hknows
  rw [Path.write, Path.write]
  induction path with
  | nil => rfl
  | cons segment path ih =>
    have hmore := ih fun other hother => hsegment other (List.mem_cons_of_mem segment hother)
    by_cases hnil : path = []
    · subst hnil
      exact hsegment segment List.mem_cons_self rest hrest
    · have hdot : ∀ c ∈ (['.'] ++ (Text.join ['.'] (path.map (Segment.write spell)) ++ rest)).head?,
          isWordChar c = false := by
        intro c hc
        obtain rfl : '.' = c := by simpa using hc
        decide
      rw [List.map_cons, List.map_cons, join_cons (by simpa using hnil),
        join_cons (by simpa using hnil), List.append_assoc, List.append_assoc,
        hsegment segment List.mem_cons_self _ hdot, expandFrom_append (by decide), hmore]
      simp only [List.append_assoc]

variable {test : Test}

/-- A path is expanded together with a character behind it that is no word character. -/
theorem expands_path_append {path : Path} (hpath : path.Valid)
    (hknows : ∀ segment ∈ path, Knows names spell target segment.name) {c : Char}
    (hword : isWordChar c = false) (hsign : c ≠ '#') :
    Expands names (path.write spell ++ [c]) (path.write target ++ [c]) := by
  intro rest
  have hhead : ∀ d ∈ ([c] ++ rest).head?, isWordChar d = false := by
    intro d hd
    obtain rfl : c = d := by simpa using hd
    exact hword
  rw [List.append_assoc, expandFrom_path hpath hknows hhead,
    expandFrom_append (by simpa using hsign.symm), List.append_assoc]

theorem expands_operand_append {operand : Operand} (hpath : operand.path.Valid)
    (hknows : ∀ segment ∈ operand.path, Knows names spell target segment.name) :
    Expands names (operand.write spell ++ [' ']) (operand.write target ++ [' ']) := by
  have hclosed : ∀ {c : Char}, isWordChar c = false → c ≠ '#' →
      Expands names (operand.path.write spell ++ [c]) (operand.path.write target ++ [c]) :=
    expands_path_append hpath hknows
  rw [Operand.write, Operand.write]
  split_ifs
  · have hparen := hclosed (c := ')') (by decide) (by decide)
    have hsize : Expands names "size(".toList "size(".toList := expands_self (by decide)
    have hspace : Expands names [' '] [' '] := expands_self (by decide)
    rw [List.append_assoc "size(".toList, List.append_assoc "size(".toList]
    exact (hsize.append hparen).append hspace
  · exact hclosed (by decide) (by decide)

/-- A written test is expanded to the test in the other spelling. -/
theorem Test.Valid.expands (h : test.Valid)
    (hknows : ∀ segment ∈ test.path, Knows names spell target segment.name) :
    Expands names (test.write spell) (test.write target) := by
  have hvalue : ∀ value ∈ test.values, Expands names value.toList value.toList := by
    intro value hmem
    exact expands_self fun hsign => (isPlaceholder_delimiter (h.values value hmem) '#' hsign).2 rfl
  cases test with
  | compare operand comparator value =>
    have hoperand := expands_operand_append h.path hknows
    have hsign : '#' ∉ comparator.sign.toList ++ [' '] := by cases comparator <;> decide
    have hwrite : ∀ spell, (Test.compare operand comparator value).write spell =
        operand.write spell ++ [' '] ++ (comparator.sign.toList ++ [' '] ++ value.toList) := by
      intro spell
      simp [Test.write]
    rw [hwrite, hwrite]
    exact hoperand.append
      ((expands_self hsign).append (hvalue value (List.mem_singleton_self value)))
  | between operand low high =>
    have hoperand := expands_operand_append h.path hknows
    have hwrite : ∀ spell, (Test.between operand low high).write spell =
        operand.write spell ++ [' '] ++ ("BETWEEN ".toList ++ (low.toList ++
          (" AND ".toList ++ high.toList))) := by
      intro spell
      simp [Test.write]
    rw [hwrite, hwrite]
    exact hoperand.append ((expands_self (by decide)).append
      ((hvalue low (by simp [Test.values])).append ((expands_self (by decide)).append
        (hvalue high (by simp [Test.values])))))
  | oneOf operand values =>
    have hoperand := expands_operand_append h.path hknows
    have hlist : Expands names (Text.join [',', ' '] (values.map String.toList))
        (Text.join [',', ' '] (values.map String.toList)) := .join (by decide) hvalue
    have hwrite : ∀ spell, (Test.oneOf operand values).write spell =
        operand.write spell ++ [' '] ++ ("IN (".toList ++
          (Text.join [',', ' '] (values.map String.toList) ++ [')'])) := by
      intro spell
      simp [Test.write]
    rw [hwrite, hwrite]
    exact hoperand.append ((expands_self (by decide)).append
      (hlist.append (expands_self (by decide))))
  | call function path value? =>
    have hname : '#' ∉ function.name.toList ++ ['('] := by cases function <;> decide
    cases value? with
    | none =>
      have hpath := expands_path_append (c := ')') h.path hknows (by decide) (by decide)
      have hwrite : ∀ spell, (Test.call function path none).write spell =
          function.name.toList ++ ['('] ++ (path.write spell ++ [')']) := by
        intro spell
        simp [Test.write]
      rw [hwrite, hwrite]
      exact (expands_self hname).append hpath
    | some value =>
      have hpath := expands_path_append (c := ',') h.path hknows (by decide) (by decide)
      have hwrite : ∀ spell, (Test.call function path (some value)).write spell =
          function.name.toList ++ ['('] ++ (path.write spell ++ [','] ++
            ([' '] ++ (value.toList ++ [')']))) := by
        intro spell
        simp [Test.write]
      rw [hwrite, hwrite]
      exact (expands_self hname).append (hpath.append ((expands_self (by decide)).append
        ((hvalue value (by simp [Test.values])).append (expands_self (by decide)))))

/-- A written condition is expanded to the condition in the other spelling. -/
theorem expands_writeGroups {groups : List (List Term)}
    (hvalid : ∀ group ∈ groups, ∀ term ∈ group, term.Valid)
    (hknows : ∀ group ∈ groups, ∀ term ∈ group, ∀ name ∈ term.names,
      Knows names spell target name) :
    Expands names (writeGroups spell groups) (writeGroups target groups) := by
  refine .join (by decide) fun group hgroup => .join (by decide) fun term hterm => ?_
  have hterm' := hvalid group hgroup term hterm
  have htest := hterm'.test.expands fun segment hsegment =>
    hknows group hgroup term hterm segment.name (List.mem_map_of_mem hsegment)
  have hclosing : '#' ∉ term.closing := by
    intro hmem
    rcases hterm'.closing.chars '#' hmem with hc | hc <;> revert hc <;> decide
  exact ((expands_self hterm'.opening.sign_not_mem).append htest).append (expands_self hclosing)

end

/-! ## Compiled conditions -/

/-- The attribute names of a condition, in order. -/
def allNames (groups : List (List Term)) : List String := groups.flatten.flatMap Term.names

/-- The value placeholders of a condition, in order. -/
def allValues (groups : List (List Term)) : List String := groups.flatten.flatMap Term.values

/-- The names of a compiled condition are those of its terms. -/
theorem get?_names_compiled {all : List String} {groups : List (List Term)} (values : List Json)
    (hall : ∀ name ∈ allNames groups, name ∈ all) {name : String} (hname : name ∈ allNames groups) :
    Dict.get? (compiled all groups values).names (placeholderOf all name) = some name := by
  refine get?_insertAll_of_mem (.inl (List.mem_map_of_mem hname)) fun other hother => ?_
  obtain ⟨second, hsecond, heq⟩ := List.mem_map.mp hother
  obtain ⟨hplaceholder, rfl⟩ := Prod.mk.inj heq
  exact placeholderOf_injective (hall second hsecond) hplaceholder

/-- The entries of a compiled condition are the names of its terms, by their placeholders. -/
theorem mem_names_compiled {all : List String} {groups : List (List Term)} (values : List Json)
    (hall : ∀ name ∈ allNames groups, name ∈ all) {entry : String × String} :
    entry ∈ (compiled all groups values).names ↔
      ∃ name ∈ allNames groups, entry = (placeholderOf all name, name) := by
  constructor
  · intro hentry
    obtain ⟨name, hname, rfl⟩ := List.mem_map.mp
      ((Dict.mem_of_mem_insertAll hentry).resolve_left List.not_mem_nil)
    exact ⟨name, hname, rfl⟩
  · rintro ⟨name, hname, rfl⟩
    exact Dict.mem_of_get? (get?_names_compiled values hall hname)

/-- The text of a compiled condition is the condition in another spelling, once its placeholders are
    replaced by what that spelling gives. -/
theorem expandFrom_compiled {all : List String} {groups : List (List Term)} {names : Dict String}
    {target : String → List Char} (values : List Json)
    (hvalid : ∀ group ∈ groups, ∀ term ∈ group, term.Valid)
    (htarget : ∀ name ∈ allNames groups, ∃ value,
      Dict.get? names (placeholderOf all name) = some value ∧ value.toList = target name) :
    Compiled.expandFrom names none (compiled all groups values).text.toList =
      writeGroups target groups := by
  have hknows : ∀ group ∈ groups, ∀ term ∈ group, ∀ name ∈ term.names,
      Knows names (fun name => (placeholderOf all name).toList) target name := by
    intro group hgroup term hterm name hname
    have hmem : name ∈ allNames groups :=
      List.mem_flatMap.mpr ⟨term, List.mem_flatten.mpr ⟨group, hgroup, hterm⟩, hname⟩
    obtain ⟨word, hword, hchars⟩ := exists_toList_placeholder (all.idxOf name)
    obtain ⟨value, hvalue, hwritten⟩ := htarget name hmem
    exact ⟨placeholderOf all name, word, value, rfl, hword, hchars, hvalue, hwritten⟩
  have hexpands := expands_writeGroups hvalid hknows []
  rw [List.append_nil] at hexpands
  show Compiled.expandFrom _ none (String.ofList (writeGroups _ groups)).toList = _
  rw [String.toList_ofList, hexpands]
  exact List.append_nil _

/-- The expansion of a compiled condition is the condition written with its names. -/
theorem expand_compiled {all : List String} {groups : List (List Term)} (values : List Json)
    (hvalid : ∀ group ∈ groups, ∀ term ∈ group, term.Valid)
    (hall : ∀ name ∈ allNames groups, name ∈ all) :
    (compiled all groups values).expand = String.ofList (writeGroups String.toList groups) :=
  congrArg String.ofList (expandFrom_compiled values hvalid fun name hname =>
    ⟨name, get?_names_compiled values hall hname, rfl⟩)

end TableClient.Condition
