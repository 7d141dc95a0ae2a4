import Mathlib
import TableClient.Proofs.Condition.Compile

/-!
# Compiling a tree

A condition with any nesting of `NOT`, parentheses, `AND` and `OR` is compiled from the text it is
written as, with single spaces. The compiled form has no nesting: it is the chain of the tests from
left to right, each with the parentheses and `NOT`s that stand before it and the parentheses behind
it. So the parentheses of a group are shared out between its first and its last test.

Results:
* `Tree.write_terms`: the chain of terms is written as the tree is.
* `Tree.valid_of_mem_terms`: each of the terms can be written.
* `Tree.onlyShape?_compiled`: when the compiled form has an only shape.
* `idxOf_addNames`: the place of a name is the number of names before its first occurrence.
* `compileAlone_tree`: what a tree is compiled to.
-/

namespace TableClient.Condition

open Text

/-- A condition as a tree: tests and groups in parentheses, each behind a number of `NOT`s, joined
    by `AND` and `OR`. -/
inductive Tree where
  | test (nots : Nat) (leaf : Test)
  | group (nots : Nat) (inner : Tree)
  | and (left right : Tree)
  | or (left right : Tree)

/-- The text of a number of `NOT`s. -/
def writeNots (nots : Nat) : List Char := (List.replicate nots "NOT ".toList).flatten

theorem opening_writeNots (nots : Nat) : Opening nots.bodd (writeNots nots) := by
  induction nots with
  | zero => exact .nil
  | succ nots ih =>
    rw [Nat.bodd_succ, writeNots, List.replicate_succ, List.flatten_cons]
    exact ih.not

namespace Tree

/-- The text of a tree, with a spelling for each attribute name. -/
def write (spell : String → List Char) : Tree → List Char
  | .test nots leaf => writeNots nots ++ leaf.write spell
  | .group nots inner => writeNots nots ++ '(' :: (inner.write spell ++ [')'])
  | .and left right => left.write spell ++ " AND ".toList ++ right.write spell
  | .or left right => left.write spell ++ " OR ".toList ++ right.write spell

/-- The tests of a tree from left to right, each with the number of `NOT`s it is under; `above` is
    the number of those above the tree. -/
def leaves (above : Nat) : Tree → List (Test × Nat)
  | .test nots leaf => [(leaf, above + nots)]
  | .group nots inner => inner.leaves (above + nots)
  | .and left right | .or left right => left.leaves above ++ right.leaves above

/-- The tests of a tree, from left to right. -/
def tests (tree : Tree) : List Test := (tree.leaves 0).map Prod.fst

/-- The attribute names of a tree, from left to right. -/
def names (tree : Tree) : List String :=
  tree.tests.flatMap fun leaf => leaf.path.map Segment.name

/-- The value placeholders of a tree, from left to right. -/
def values (tree : Tree) : List String := tree.tests.flatMap Test.values

theorem map_fst_leaves (tree : Tree) (above other : Nat) :
    (tree.leaves above).map Prod.fst = (tree.leaves other).map Prod.fst := by
  induction tree generalizing above other with
  | test => rfl
  | group nots inner ih => exact ih _ _
  | and left right ihl ihr =>
    rw [leaves, leaves, List.map_append, List.map_append, ihl above other, ihr above other]
  | or left right ihl ihr =>
    rw [leaves, leaves, List.map_append, List.map_append, ihl above other, ihr above other]

theorem tests_group (nots : Nat) (inner : Tree) : (group nots inner).tests = inner.tests :=
  inner.map_fst_leaves _ _

theorem tests_and (left right : Tree) : (and left right).tests = left.tests ++ right.tests :=
  List.map_append

theorem tests_or (left right : Tree) : (or left right).tests = left.tests ++ right.tests :=
  List.map_append

theorem leaves_ne_nil (tree : Tree) (above : Nat) : tree.leaves above ≠ [] := by
  induction tree generalizing above with
  | test => exact List.cons_ne_nil _ _
  | group nots inner ih => exact ih _
  | and left right ihl _ => exact List.append_ne_nil_of_left_ne_nil (ihl above) _
  | or left right ihl _ => exact List.append_ne_nil_of_left_ne_nil (ihl above) _

/-- Two trees have more than one test. -/
theorem leaves_append_ne_singleton (left right : Tree) (above : Nat) (leaf : Test × Nat) :
    left.leaves above ++ right.leaves above ≠ [leaf] := by
  intro h
  have hlength := congrArg List.length h
  have hleft := List.length_pos_iff.mpr (left.leaves_ne_nil above)
  have hright := List.length_pos_iff.mpr (right.leaves_ne_nil above)
  rw [List.length_append, List.length_singleton] at hlength
  omega

end Tree

/-! ## The chain of terms -/

/-- Joins two chains by `OR`: the last group of one and the first of the other become one. -/
def joinOr : List (List Term) → List (List Term) → List (List Term)
  | [], others => others
  | [group], [] => [group]
  | [group], other :: others => (group ++ other) :: others
  | group :: next :: groups, others => group :: joinOr (next :: groups) others

/-- A chain of groups that hold terms. -/
structure IsChain (groups : List (List Term)) : Prop where
  ne_nil : groups ≠ []
  groups : ∀ group ∈ groups, group ≠ []

section
variable {spell : String → List Char} {groups others : List (List Term)}

theorem flatten_joinOr : (joinOr groups others).flatten = groups.flatten ++ others.flatten := by
  fun_induction joinOr groups others <;> simp_all

theorem IsChain.rest {group next : List Term} (h : IsChain (group :: next :: groups)) :
    IsChain (next :: groups) :=
  ⟨List.cons_ne_nil _ _, fun other hother => h.groups other (List.mem_cons_of_mem _ hother)⟩

theorem IsChain.append (h : IsChain groups) (ho : IsChain others) : IsChain (groups ++ others) :=
  ⟨by simp [h.ne_nil], fun group hgroup =>
    (List.mem_append.mp hgroup).elim (h.groups group) (ho.groups group)⟩

theorem IsChain.joinOr (h : IsChain groups) (ho : IsChain others) :
    IsChain (joinOr groups others) := by
  fun_induction Condition.joinOr groups others with
  | case1 others => exact ho
  | case2 group => exact h
  | case3 group other others =>
    refine ⟨List.cons_ne_nil _ _, fun group' hgroup => ?_⟩
    rcases List.mem_cons.mp hgroup with rfl | hgroup
    · simp [h.groups group List.mem_cons_self]
    · exact ho.groups group' (List.mem_cons_of_mem _ hgroup)
  | case4 group next groups others ih =>
    have hrest := ih h.rest ho
    refine ⟨List.cons_ne_nil _ _, fun group' hgroup => ?_⟩
    rcases List.mem_cons.mp hgroup with rfl | hgroup
    · exact h.groups group' List.mem_cons_self
    · exact hrest.groups group' hgroup

theorem writeGroups_append (h : IsChain groups) (ho : IsChain others) :
    writeGroups spell (groups ++ others) =
      writeGroups spell groups ++ " AND ".toList ++ writeGroups spell others := by
  rw [writeGroups, List.map_append,
    join_append (by simpa using h.ne_nil) (by simpa using ho.ne_nil), writeGroups, writeGroups]

theorem writeGroups_cons {group : List Term} (h : groups ≠ []) :
    writeGroups spell (group :: groups) = join " OR ".toList (group.map (Term.write spell)) ++
      " AND ".toList ++ writeGroups spell groups := by
  rw [writeGroups, List.map_cons, join_cons (by simpa using h), writeGroups]

theorem writeGroups_joinOr (h : IsChain groups) (ho : IsChain others) :
    writeGroups spell (joinOr groups others) =
      writeGroups spell groups ++ " OR ".toList ++ writeGroups spell others := by
  fun_induction joinOr groups others with
  | case1 others => exact absurd rfl h.ne_nil
  | case2 group => exact absurd rfl ho.ne_nil
  | case3 group other others =>
    have hgroup := h.groups group List.mem_cons_self
    have hother := ho.groups other List.mem_cons_self
    have hjoin : join " OR ".toList ((group ++ other).map (Term.write spell)) =
        join " OR ".toList (group.map (Term.write spell)) ++ " OR ".toList ++
          join " OR ".toList (other.map (Term.write spell)) := by
      rw [List.map_append, join_append (by simpa using hgroup) (by simpa using hother)]
    by_cases hnil : others = []
    · subst hnil
      exact hjoin
    · rw [writeGroups_cons hnil, writeGroups_cons hnil, hjoin]
      simp [writeGroups, join]
  | case4 group next groups others ih =>
    rw [writeGroups_cons (h.rest.joinOr ho).ne_nil, writeGroups_cons (List.cons_ne_nil _ _),
      ih h.rest ho]
    simp only [List.append_assoc]

end

/-- There is an only shape if there is one term and it is not negated. -/
theorem Compiled.onlyShape?_eq_some_iff {c : Compiled} {shape : Shape} :
    c.onlyShape? = some shape ↔ c.terms = [⟨shape, false⟩] := by
  rw [Compiled.onlyShape?]
  constructor
  · intro h
    split at h
    · rename_i term hterms
      split_ifs at h with hnegated
      obtain rfl := Option.some.inj h
      rw [hterms, ← Bool.eq_false_iff.mpr hnegated]
    · contradiction
  · intro h
    rw [h]
    rfl

namespace Tree

/-- The chain of the terms of a tree. `opening` and `closing` stand around the tree, and `nots` is
    the number of `NOT`s in `opening`. -/
def terms (opening : List Char) (nots : Nat) (closing : List Char) : Tree → List (List Term)
  | .test more leaf => [[⟨opening ++ writeNots more, (nots + more).bodd, leaf, closing⟩]]
  | .group more inner =>
    inner.terms (opening ++ writeNots more ++ ['(']) (nots + more) (')' :: closing)
  | .and left right => left.terms opening nots [] ++ right.terms [] 0 closing
  | .or left right => joinOr (left.terms opening nots []) (right.terms [] 0 closing)

theorem isChain_terms (tree : Tree) (opening : List Char) (nots : Nat) (closing : List Char) :
    IsChain (tree.terms opening nots closing) := by
  induction tree generalizing opening nots closing with
  | test more leaf => exact ⟨List.cons_ne_nil _ _, by simp [terms]⟩
  | group more inner ih => exact ih _ _ _
  | and left right ihl ihr => exact (ihl _ _ _).append (ihr _ _ _)
  | or left right ihl ihr => exact (ihl _ _ _).joinOr (ihr _ _ _)

/-- The chain of terms is written as the tree is. -/
theorem write_terms (spell : String → List Char) (tree : Tree) (opening : List Char) (nots : Nat)
    (closing : List Char) :
    writeGroups spell (tree.terms opening nots closing) =
      opening ++ tree.write spell ++ closing := by
  induction tree generalizing opening nots closing with
  | test more leaf =>
    rw [write, ← List.append_assoc]
    rfl
  | group more inner ih => simp [terms, ih, write]
  | and left right ihl ihr =>
    rw [terms, writeGroups_append (isChain_terms _ _ _ _) (isChain_terms _ _ _ _), ihl, ihr, write]
    simp
  | or left right ihl ihr =>
    rw [terms, writeGroups_joinOr (isChain_terms _ _ _ _) (isChain_terms _ _ _ _), ihl, ihr, write]
    simp

/-- The terms hold the tests of the tree. -/
theorem map_test_terms (tree : Tree) (opening : List Char) (nots : Nat) (closing : List Char) :
    (tree.terms opening nots closing).flatten.map Term.test = tree.tests := by
  induction tree generalizing opening nots closing with
  | test more leaf => rfl
  | group more inner ih => rw [terms, ih, tests_group]
  | and left right ihl ihr =>
    rw [terms, List.flatten_append, List.map_append, ihl, ihr, tests_and]
  | or left right ihl ihr => rw [terms, flatten_joinOr, List.map_append, ihl, ihr, tests_or]

theorem allNames_terms (tree : Tree) (opening : List Char) (nots : Nat) (closing : List Char) :
    allNames (tree.terms opening nots closing) = tree.names := by
  rw [names, ← tree.map_test_terms opening nots closing, List.flatMap_map]
  rfl

theorem allValues_terms (tree : Tree) (opening : List Char) (nots : Nat) (closing : List Char) :
    allValues (tree.terms opening nots closing) = tree.values := by
  rw [values, ← tree.map_test_terms opening nots closing, List.flatMap_map]
  rfl

/-- What stands around a term of a tree can stand around a test. -/
theorem opening_closing_of_mem_terms {tree : Tree} {opening : List Char} {nots : Nat}
    {closing : List Char} (hopening : Opening nots.bodd opening) (hclosing : Closing closing) :
    ∀ term ∈ (tree.terms opening nots closing).flatten,
      Opening term.negated term.opening ∧ Closing term.closing := by
  have hmore : ∀ {opening : List Char} {nots : Nat}, Opening nots.bodd opening → ∀ more : Nat,
      Opening (nots + more).bodd (opening ++ writeNots more) := by
    intro opening nots hopening more
    rw [Nat.bodd_add]
    exact hopening.append (opening_writeNots more)
  have hnil : Opening (Nat.bodd 0) [] := .nil
  induction tree generalizing opening nots closing with
  | test more leaf =>
    intro term hterm
    obtain rfl := List.mem_singleton.mp hterm
    exact ⟨hmore hopening more, hclosing⟩
  | group more inner ih =>
    have hparen := (hmore hopening more).append Opening.nil.paren
    rw [Bool.xor_false] at hparen
    exact ih hparen (Closing.nil.paren.append hclosing)
  | and left right ihl ihr =>
    rw [terms, List.flatten_append]
    intro term hterm
    exact (List.mem_append.mp hterm).elim (ihl hopening .nil term) (ihr hnil hclosing term)
  | or left right ihl ihr =>
    rw [terms, flatten_joinOr]
    intro term hterm
    exact (List.mem_append.mp hterm).elim (ihl hopening .nil term) (ihr hnil hclosing term)

/-- The only term of a tree with one test is negated if the number of `NOT`s is odd. -/
theorem terms_of_leaves_eq_singleton {tree : Tree} {leaf : Test} {count nots : Nat}
    {opening closing : List Char} (h : tree.leaves nots = [(leaf, count)]) :
    ∃ before behind, (tree.terms opening nots closing).flatten =
      [⟨before, count.bodd, leaf, behind⟩] := by
  induction tree generalizing opening nots closing with
  | test more other =>
    obtain ⟨rfl, rfl⟩ := Prod.mk.inj (List.singleton_inj.mp h)
    exact ⟨opening ++ writeNots more, closing, rfl⟩
  | group more inner ih => exact ih h
  | and left right => exact absurd h (leaves_append_ne_singleton left right nots _)
  | or left right => exact absurd h (leaves_append_ne_singleton left right nots _)

/-- The compiled form of a tree has an only shape if the tree has one test, under an even number of
    `NOT`s. -/
theorem onlyShape?_compiled (tree : Tree) (all : List String) (given : List Json) (shape : Shape) :
    (compiled all (tree.terms [] 0 []) given).onlyShape? = some shape ↔
      ∃ leaf nots, tree.leaves 0 = [(leaf, nots)] ∧ Even nots ∧ leaf.shape = shape := by
  have heven : ∀ n : Nat, Even n ↔ n.bodd = false := by
    intro n
    rw [Nat.even_iff, Nat.mod_two_of_bodd]
    cases n.bodd <;> simp
  have hterms : (compiled all (tree.terms [] 0 []) given).terms =
      (tree.terms [] 0 []).flatten.map fun term => ⟨term.test.shape, term.negated⟩ := rfl
  rw [Compiled.onlyShape?_eq_some_iff, hterms]
  constructor
  · intro h
    have hlength : (tree.leaves 0).length = 1 := by
      have htests := congrArg List.length (tree.map_test_terms [] 0 [])
      have hone := congrArg List.length h
      rw [List.length_map, tests, List.length_map] at htests
      rw [List.length_map, List.length_singleton] at hone
      omega
    obtain ⟨⟨leaf, nots⟩, hleaves⟩ := List.length_eq_one_iff.mp hlength
    obtain ⟨before, behind, hflatten⟩ :=
      @terms_of_leaves_eq_singleton tree leaf nots 0 [] [] hleaves
    rw [hflatten] at h
    obtain ⟨rfl, hnots⟩ := TermShape.mk.inj (List.singleton_inj.mp h)
    exact ⟨leaf, nots, hleaves, (heven nots).mpr hnots, rfl⟩
  · rintro ⟨leaf, nots, hleaves, hnots, rfl⟩
    obtain ⟨before, behind, hflatten⟩ :=
      @terms_of_leaves_eq_singleton tree leaf nots 0 [] [] hleaves
    rw [hflatten, List.map_singleton, (heven nots).mp hnots]

end Tree

/-! ## Ranks of names -/

/-- The rank of a name in a list: the number of different names before its first occurrence. -/
def rank (names : List String) (name : String) : Nat :=
  (names.takeWhile (· != name)).dedup.length

/-- The place of a name that is added is its rank. -/
theorem idxOf_addNames {there : List String} {name : String} (hnodup : there.Nodup)
    (hname : name ∉ there) (names : List String) :
    (addNames there names).idxOf name = (there ++ names.takeWhile (· != name)).dedup.length := by
  induction names generalizing there with
  | nil =>
    rw [addNames, List.takeWhile_nil, List.append_nil, hnodup.dedup,
      List.idxOf_eq_length hname]
  | cons first names ih =>
    rw [addNames]
    by_cases hfirst : first = name
    · subst hfirst
      obtain ⟨more, hmore⟩ := prefix_addNames (there ++ [first]) names
      have hthere : there.contains first = false := by simpa using hname
      rw [hthere, if_neg Bool.false_ne_true, ← hmore, List.append_assoc,
        List.idxOf_append_of_notMem hname]
      simp [hnodup.dedup]
    · rw [List.takeWhile_cons_of_pos (by simpa using hfirst)]
      split_ifs with hthere
      · have hmem : first ∈ there := by simpa using hthere
        rw [ih hnodup hname, ← List.card_toFinset, ← List.card_toFinset]
        simp [hmem]
      · have hmem : first ∉ there := by simpa using hthere
        have hmore : (there ++ [first]).Nodup := List.nodup_append.mpr
          ⟨hnodup, List.nodup_singleton first, by
            rintro x hx y hy rfl
            exact hmem (List.mem_singleton.mp hy ▸ hx)⟩
        rw [ih hmore (by simp [hname, Ne.symm hfirst]), List.append_assoc, List.singleton_append]

/-! ## Compiling -/

/-- A test that can stand anywhere in a condition: its path is no word of the grammar. -/
structure Test.Plain (leaf : Test) : Prop where
  valid : leaf.Valid
  path : leaf.path.write String.toList ∉ "NOT".toList :: keywords

instance (leaf : Test) : Decidable leaf.Plain :=
  decidable_of_iff (leaf.Valid ∧ leaf.path.write String.toList ∉ "NOT".toList :: keywords)
    ⟨fun h => ⟨h.1, h.2⟩, fun h => ⟨h.valid, h.path⟩⟩

theorem Test.Plain.lead_ne {leaf : Test} (h : leaf.Plain) : leaf.lead ≠ "NOT".toList := by
  intro hlead
  have hoperand : ∀ {operand : Operand}, operand.write String.toList = "NOT".toList →
      operand.path.write String.toList = "NOT".toList := by
    intro operand hwrite
    rw [Operand.write] at hwrite
    split_ifs at hwrite
    · exact absurd (congrArg List.head? hwrite) (by simp)
    · exact hwrite
  refine h.path (List.mem_cons.mpr (.inl ?_))
  cases leaf with
  | compare operand => exact hoperand hlead
  | between operand => exact hoperand hlead
  | oneOf operand => exact hoperand hlead
  | call function => exact absurd (congrArg List.head? hlead) function.head_name_ne

/-- The terms of a tree can be written, and their paths are no keywords. -/
theorem Tree.valid_of_mem_terms {tree : Tree} (h : ∀ leaf ∈ tree.tests, leaf.Plain) :
    ∀ group ∈ tree.terms [] 0 [], ∀ term ∈ group,
      term.Valid ∧ term.test.path.write String.toList ∉ keywords := by
  intro group hgroup term hterm
  have hmem : term ∈ (tree.terms [] 0 []).flatten := List.mem_flatten.mpr ⟨group, hgroup, hterm⟩
  have htest : term.test ∈ tree.tests := by
    rw [← tree.map_test_terms [] 0 []]
    exact List.mem_map_of_mem hmem
  have hplain := h term.test htest
  have hnil : Opening (Nat.bodd 0) [] := .nil
  obtain ⟨hopening, hclosing⟩ := Tree.opening_closing_of_mem_terms hnil .nil term hmem
  exact ⟨⟨hopening, hplain.valid, hplain.lead_ne, hclosing⟩, fun hpath =>
    hplain.path (List.mem_cons_of_mem _ hpath)⟩

/-- Terms whose paths are no keywords fit in a group. -/
theorem groupFits_of_path {group : List Term} (h : ∀ term ∈ group, term.Valid ∧
    term.test.path.write String.toList ∉ keywords) (first : Bool) :
    GroupFits first false (groupWords group) ∧ (groupWords group).foldl waits false = false := by
  induction group generalizing first with
  | nil => exact ⟨trivial, rfl⟩
  | cons term group ih =>
    obtain ⟨hvalid, hpath⟩ := h term List.mem_cons_self
    obtain ⟨hfits, hwaits⟩ := hvalid.fits_of_path hpath first
    have hmore := ih (fun other hother => h other (List.mem_cons_of_mem term hother)) false
    rw [groupWords, List.map_cons, GroupFits, List.foldl_cons, hwaits]
    exact ⟨⟨hfits, hmore.1⟩, hmore.2⟩

/-- The values of a compiled condition are bound to its placeholders in order. -/
theorem get?_values_compiled (all : List String) {groups : List (List Term)} {values : List Json}
    (hnodup : (allValues groups).Nodup) (hcount : (allValues groups).length = values.length) :
    ∀ pair ∈ (allValues groups).zip values,
      (compiled all groups values).values.get? pair.1 = some (Attribute.ofDocument pair.2) := by
  rintro ⟨placeholder, value⟩ hpair
  have hkeys : (((allValues groups).zip (values.map Attribute.ofDocument)).map Prod.fst).Nodup := by
    rwa [List.map_fst_zip (by simp [hcount])]
  have hmem : (placeholder, Attribute.ofDocument value) ∈
      (allValues groups).zip (values.map Attribute.ofDocument) := by
    rw [List.zip_map_right]
    exact List.mem_map.mpr ⟨_, hpair, rfl⟩
  refine get?_insertAll_of_mem (.inl hmem) fun other hother => ?_
  exact (Prod.mk.inj (List.inj_on_of_nodup_map hkeys hother hmem rfl)).2

/-- A tree whose value placeholders differ is compiled from the text it is written as:
    * The text that is sent is written alike, with `#nk` for a name of rank `k`.
    * The placeholders are bound to the values in order.
    * There is an only shape if there is one test, under an even number of `NOT`s. -/
theorem compileAlone_tree {tree : Tree} {values : List Json}
    (htests : ∀ leaf ∈ tree.tests, leaf.Plain) (hseparator : '\x1f' ∉ tree.write String.toList)
    (hdistinct : tree.values.Nodup) (hcount : tree.values.length = values.length) :
    ∃ c, compileAlone (String.ofList (tree.write String.toList)) values = .ok c ∧
      c.text = String.ofList
        (tree.write fun name => (placeholder (rank tree.names name)).toList) ∧
      (∀ pair ∈ tree.values.zip values,
        c.values.get? pair.1 = some (Attribute.ofDocument pair.2)) ∧
      ∀ shape, c.onlyShape? = some shape ↔
        ∃ leaf nots, tree.leaves 0 = [(leaf, nots)] ∧ Even nots ∧ leaf.shape = shape := by
  have hchain := tree.isChain_terms [] 0 []
  have hwrite : ∀ spell, writeGroups spell (tree.terms [] 0 []) = tree.write spell := by
    intro spell
    rw [tree.write_terms, List.nil_append, List.append_nil]
  have hleaf := Tree.valid_of_mem_terms htests
  have hvalues := tree.allValues_terms [] 0 []
  have hfresh : Fresh [] tree.values := by
    refine ⟨fun value hvalue => ?_, hdistinct, fun _ _ => List.not_mem_nil⟩
    obtain ⟨leaf, hleaf, hvalue⟩ := List.mem_flatMap.mp hvalue
    exact (htests leaf hleaf).valid.values value hvalue
  have hcompile := @compileAlone_write (tree.terms [] 0 []) values hchain.ne_nil
    (fun group hgroup => ⟨hchain.groups group hgroup, fun term hterm =>
      (hleaf group hgroup term hterm).1⟩)
    (fun group hgroup => (groupFits_of_path (hleaf group hgroup) true).1)
    (fun group hgroup => (groupFits_of_path (hleaf group (List.mem_of_mem_dropLast hgroup)) true).2)
    (by rwa [hwrite]) (by rwa [hvalues]) (by rwa [hvalues])
  rw [hwrite, tree.allNames_terms] at hcompile
  refine ⟨_, hcompile, ?_, ?_, tree.onlyShape?_compiled _ values⟩
  · have hplaces : (fun name => (placeholderOf (addNames [] tree.names) name).toList) =
        fun name => (placeholder (rank tree.names name)).toList := by
      funext name
      rw [placeholderOf, idxOf_addNames List.nodup_nil List.not_mem_nil]
      rfl
    rw [compiled, ← hplaces, hwrite]
  · rw [← hvalues]
    exact get?_values_compiled _ (by rwa [hvalues]) (by rwa [hvalues])

/-- A tree with a group, a range, a name that is used twice and two `NOT`s before one test. -/
def nestedTree : Tree :=
  .and
    (.group 1
      (.or (.test 0 (.between ⟨[⟨"a", []⟩, ⟨"b", ['[', '0', ']']⟩], false⟩ ":l" ":h"))
        (.test 0 (.call .contains [⟨"c", []⟩] (some ":s")))))
    (.test 2 (.oneOf ⟨[⟨"a", []⟩], true⟩ [":x", ":y"]))

/-- What this tree is compiled to. -/
theorem compileAlone_nestedTree : ∃ c, compileAlone
      "NOT (a.b[0] BETWEEN :l AND :h OR contains(c, :s)) AND NOT NOT size(a) IN (:x, :y)"
      [.int 1, .int 2, .int 3, .int 4, .int 5] = .ok c ∧
    c.text =
      "NOT (#n0.#n1[0] BETWEEN :l AND :h OR contains(#n2, :s)) AND NOT NOT size(#n0) IN (:x, :y)" ∧
    c.values.get? ":x" = some (Attribute.ofDocument (.int 4)) ∧ c.onlyShape? = none := by
  obtain ⟨c, hcompile, htext, hvalues, hshape⟩ := @compileAlone_tree nestedTree
    [.int 1, .int 2, .int 3, .int 4, .int 5] (by decide +kernel) (by decide +kernel)
    (by decide +kernel) rfl
  have hwrite : String.ofList (nestedTree.write String.toList) =
      "NOT (a.b[0] BETWEEN :l AND :h OR contains(c, :s)) AND NOT NOT size(a) IN (:x, :y)" := by
    decide +kernel
  have hpair : (":x", Json.int 4) ∈
      nestedTree.values.zip [.int 1, .int 2, .int 3, .int 4, .int 5] := by
    simp [nestedTree, Tree.values, Tree.tests, Tree.leaves, Test.values]
  rw [hwrite] at hcompile
  refine ⟨c, hcompile, htext.trans (by decide +kernel), hvalues _ hpair, ?_⟩
  refine Option.eq_none_iff_forall_ne_some.mpr fun shape h => ?_
  obtain ⟨leaf, nots, hleaves, -⟩ := (hshape shape).mp h
  have hlength : (nestedTree.leaves 0).length = 3 := rfl
  rw [hleaves] at hlength
  simp at hlength

end TableClient.Condition
