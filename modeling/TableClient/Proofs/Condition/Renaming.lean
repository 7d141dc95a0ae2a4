import Mathlib
import TableClient.Proofs.Condition.Sharing

/-!
# Conditions up to their placeholders

With the attribute names in place of their placeholders, a compiled condition no longer depends on
the namespace that it was compiled in. What is left of the namespace is the value placeholders: a
condition is compiled in it if it is compiled alone and none of its value placeholders is taken.
Conditions that share a namespace may be expanded before they are joined or after that.

Results:
* `expandText_append`: a text is expanded part by part where no word character follows.
* `expandFrom_congr`: expansion asks for the placeholders of a text and for nothing else.
* `Compiled.Within.expandText_eq`: conditions that share a namespace may also share the names that
  their placeholders stand for.
* `Shares.join_expanded`: such conditions may be expanded before they are joined or after that.
* `exists_compile`, `expanded_of_compile`: compiling in a namespace and compiling alone.
* `rename_compiled`: a compiled condition with the placeholders of another namespace.
* `compile_renames_alone`: what is compiled in a namespace is a renaming of what is compiled alone.
-/

namespace TableClient.Condition

open Text

/-- A text with the names in place of their placeholders. -/
def expandText (names : Dict String) (text : String) : String :=
  String.ofList (Compiled.expandFrom names none text.toList)

/-- A condition with the names in place of their placeholders. -/
def Compiled.expanded (c : Compiled) : Compiled := { c with text := c.expand, names := [] }

/-! ## Expansion part by part -/

section Expansion

variable {names others : Dict String}

/-- A text is expanded part by part where no word character follows. -/
theorem expandFrom_append_of_head {rest : List Char} (h : ∀ c ∈ rest.head?, isWordChar c = false)
    (word : Option (List Char)) (text : List Char) :
    Compiled.expandFrom names word (text ++ rest) =
      Compiled.expandFrom names word text ++ Compiled.expandFrom names none rest := by
  induction text generalizing word with
  | nil =>
    cases word with
    | none => rfl
    | some word =>
      cases rest with
      | nil => simp [Compiled.expandFrom]
      | cons c rest =>
        have hc := h c rfl
        rw [List.nil_append, Compiled.expandFrom, Compiled.expandFrom, Compiled.expandFrom]
        simp only [hc, Bool.false_eq_true, if_false]
        split_ifs <;> rfl
  | cons c text ih =>
    cases word with
    | none =>
      rw [List.cons_append, Compiled.expandFrom, Compiled.expandFrom]
      split_ifs <;> simp [ih]
    | some word =>
      rw [List.cons_append, Compiled.expandFrom, Compiled.expandFrom]
      split_ifs <;> simp [ih]

/-- An open placeholder goes on to the end of the word characters. -/
theorem expandFrom_some (word text : List Char) :
    Compiled.expandFrom names (some word) text =
      Compiled.resolve names ((text.takeWhile isWordChar).reverse ++ word) ++
        Compiled.expandFrom names none (text.dropWhile isWordChar) := by
  induction text generalizing word with
  | nil => simp [Compiled.expandFrom]
  | cons c text ih =>
    rw [Compiled.expandFrom]
    by_cases hc : isWordChar c = true
    · rw [if_pos hc, ih]
      simp [hc]
    · rw [if_neg hc]
      simp only [List.takeWhile_cons_of_neg (by simpa using hc),
        List.dropWhile_cons_of_neg (by simpa using hc), List.reverse_nil, List.nil_append]
      rw [Compiled.expandFrom]
      split_ifs <;> rfl

theorem placeholdersIn_dropWhile (text : List Char) :
    placeholdersIn '#' (text.dropWhile isWordChar) = placeholdersIn '#' text := by
  have hword : isUnsigned (text.takeWhile isWordChar) = true :=
    isUnsigned_of_isWordChar fun c hc => by simpa using List.mem_takeWhile_imp hc
  have hsplit := @placeholdersIn_unsigned '#' rfl _ hword (text.dropWhile isWordChar)
  rw [List.takeWhile_append_dropWhile] at hsplit
  exact hsplit.symm

/-- Expansion asks for the placeholders of a text and for nothing else. -/
theorem expandFrom_congr : ∀ {text : List Char},
    (∀ mark ∈ placeholdersIn '#' text, Dict.get? names mark = Dict.get? others mark) →
      Compiled.expandFrom names none text = Compiled.expandFrom others none text
  | [], _ => rfl
  | c :: text, h => by
    rw [Compiled.expandFrom, Compiled.expandFrom]
    rw [placeholdersIn] at h
    split_ifs at h ⊢ with hc
    · subst hc
      obtain ⟨hfirst, hrest⟩ := List.forall_mem_cons.mp h
      have hresolve : Compiled.resolve names ((text.takeWhile isWordChar).reverse ++ []) =
          Compiled.resolve others ((text.takeWhile isWordChar).reverse ++ []) := by
        simp only [Compiled.resolve, List.append_nil, List.reverse_reverse, hfirst]
      rw [expandFrom_some, expandFrom_some, hresolve, expandFrom_congr]
      rwa [placeholdersIn_dropWhile]
    · rw [expandFrom_congr h]
termination_by text => text.length
decreasing_by
  · exact Nat.lt_succ_of_le (List.length_dropWhile_le _ _)
  · simp

end Expansion

/-! ## Shared names -/

section Shared

variable {space : Namespace} {names others : Dict String} {c d : Compiled}
  {conditions : List Compiled}

/-- The placeholders of names are those that a namespace gives them. -/
def Agrees (space : Namespace) (names : Dict String) : Prop :=
  ∀ entry ∈ names, entry.2 ∈ space.names ∧ entry.1 = placeholderOf space.names entry.2

theorem Agrees.insertAll (h : Agrees space names) (hothers : Agrees space others) :
    Agrees space (Dict.insertAll names others) := fun entry hentry =>
  (Dict.mem_of_mem_insertAll hentry).elim (h entry) (hothers entry)

/-- A placeholder stands for the same name wherever it is known. -/
theorem Agrees.get?_eq (h : Agrees space names) (hothers : Agrees space others) {mark : String}
    (hmark : mark ∈ Dict.keys names) (hother : mark ∈ Dict.keys others) :
    Dict.get? names mark = Dict.get? others mark := by
  obtain ⟨name, hname⟩ := Dict.mem_keys_iff.mp hmark
  obtain ⟨other, hother⟩ := Dict.mem_keys_iff.mp hother
  obtain ⟨hmem, heq⟩ := h _ (Dict.mem_of_get? hname)
  obtain ⟨-, hsame⟩ := hothers _ (Dict.mem_of_get? hother)
  have hone : name = other := placeholderOf_injective hmem (heq.symm.trans hsame)
  rw [hname, hother, hone]

/-- A condition of a namespace may be expanded with more names of the namespace than its own. -/
theorem Compiled.Within.expandText_eq (hc : c.Within space) (hnames : Agrees space names)
    (hkeys : ∀ mark ∈ Dict.keys c.names, mark ∈ Dict.keys names) :
    expandText names c.text = c.expand := by
  refine congrArg String.ofList (expandFrom_congr fun mark hmark => ?_)
  have hknown := (hc.closed.names mark).mp hmark
  exact hnames.get?_eq hc.names (hkeys mark hknown) hknown

theorem toList_expandText (names : Dict String) (text : String) :
    (expandText names text).toList = Compiled.expandFrom names none text.toList :=
  String.toList_ofList

theorem expandText_grouped (names : Dict String) (c : Compiled) :
    expandText names c.grouped = if 1 < c.terms.length then "(" ++ expandText names c.text ++ ")"
      else expandText names c.text := by
  rw [Compiled.grouped]
  split_ifs
  · have hopen : ("(" ++ c.text ++ ")").toList = ['('] ++ (c.text.toList ++ [')']) := by simp
    have hclose : ∀ d ∈ [')'].head?, isWordChar d = false := by
      rintro d ⟨⟩
      decide
    have hend : Compiled.expandFrom names none [')'] = [')'] := rfl
    refine String.toList_injective ?_
    rw [toList_expandText, hopen, expandFrom_append (by decide), expandFrom_append_of_head hclose,
      hend, ← toList_expandText]
    simp
  · rfl

theorem expandText_joined (names : Dict String) (connective : Compiled.Connective)
    (left right : String) :
    expandText names (left ++ " " ++ connective.word ++ " " ++ right) =
      expandText names left ++ " " ++ connective.word ++ " " ++ expandText names right := by
  have hlink : (left ++ " " ++ connective.word ++ " " ++ right).toList =
      left.toList ++ ((" " ++ connective.word ++ " ").toList ++ right.toList) := by
    simp
  have hhead : ∀ d ∈ ((" " ++ connective.word ++ " ").toList ++ right.toList).head?,
      isWordChar d = false := by
    intro d hd
    obtain rfl : ' ' = d := by simpa using hd
    decide
  have hword : '#' ∉ (" " ++ connective.word ++ " ").toList := by cases connective <;> decide
  refine String.toList_injective ?_
  rw [toList_expandText, hlink, expandFrom_append_of_head hhead, expandFrom_append hword,
    ← toList_expandText, ← toList_expandText]
  simp

/-- Conditions that share a namespace may be expanded before they are joined or after that. -/
theorem Shares.join_expanded (h : Shares space (c :: d :: conditions))
    {connective : Compiled.Connective} {joined : Compiled}
    (hjoined : Compiled.join connective c d = .ok joined) :
    Compiled.join connective c.expanded d.expanded = .ok joined.expanded := by
  have hc := h.within c List.mem_cons_self
  have hd := h.within d (List.mem_cons_of_mem c List.mem_cons_self)
  have hagrees := Agrees.insertAll hc.names hd.names
  have hleft : expandText (Dict.insertAll c.names d.names) c.grouped = c.expanded.grouped := by
    rw [expandText_grouped, hc.expandText_eq hagrees fun mark hmark =>
      Dict.mem_keys_insertAll.mpr (.inl hmark)]
    rfl
  have hright : expandText (Dict.insertAll c.names d.names) d.grouped = d.expanded.grouped := by
    rw [expandText_grouped, hd.expandText_eq hagrees fun mark hmark =>
      Dict.mem_keys_insertAll.mpr (.inr hmark)]
    rfl
  rw [Compiled.join] at hjoined
  split at hjoined
  · contradiction
  · rename_i hnone
    obtain rfl := Except.ok.inj hjoined
    -- expanded conditions have no names to disagree on
    have hvalues : Compiled.valueConflict? c.values d.values = none := by
      cases hnames : Compiled.nameConflict? c.names d.names with
      | some mark => simp [hnames] at hnone
      | none => simpa [hnames] using hnone
    have hnone : (Compiled.nameConflict? c.expanded.names d.expanded.names <|>
        Compiled.valueConflict? c.expanded.values d.expanded.values) = none := hvalues
    have htext := expandText_joined (Dict.insertAll c.names d.names) connective c.grouped d.grouped
    rw [hleft, hright] at htext
    rw [Compiled.join, hnone]
    exact congrArg (fun text => Except.ok (⟨text, [], Dict.insertAll c.values d.values,
      c.terms ++ d.terms⟩ : Compiled)) htext.symm

end Shared

/-! ## Compiling in a namespace and alone -/

section Alone

variable {space after : Namespace} {text : String} {values : List Json} {c alone : Compiled}

theorem fresh_iff {bound marks : List String} :
    Fresh bound marks ↔ Fresh [] marks ∧ marks.Disjoint bound := by
  constructor
  · rintro ⟨hvalid, hnodup, hunused⟩
    exact ⟨⟨hvalid, hnodup, fun _ _ => List.not_mem_nil⟩, hunused⟩
  · rintro ⟨⟨hvalid, hnodup, -⟩, hunused⟩
    exact ⟨hvalid, hnodup, hunused⟩

theorem compileAlone_eq_ok_iff :
    compileAlone text values = .ok alone ↔
      ∃ after, compile {} text values = .ok (alone, after) := by
  rw [compileAlone]
  cases compile {} text values with
  | error error => simp [Except.map]
  | ok result => simp [Except.map, Prod.ext_iff]

/-- The terms of a condition can be read in a namespace if they can be read alone and their value
    placeholders are free. -/
theorem readGroups_iff_alone (hne : words text.toList ≠ []) {bound : List String}
    {groups : List (List Term)} : readGroups bound (termTexts (words text.toList)) = .ok groups ↔
      readGroups [] (termTexts (words text.toList)) = .ok groups ∧
        (allValues groups).Disjoint bound := by
  have hspaced := spaced_of_mem_termTexts hne fun word hword => mem_words hword
  rw [readGroups_eq_ok_iff hspaced, readGroups_eq_ok_iff hspaced, ← allValues, fresh_iff, and_assoc]

/-- A condition is compiled in a namespace if it is compiled alone and its value placeholders are
    free. -/
theorem exists_compile (h : compileAlone text values = .ok alone)
    (hfree : (Dict.keys alone.values).Disjoint space.bound) :
    ∃ c after, compile space text values = .ok (c, after) := by
  obtain ⟨_, h⟩ := compileAlone_eq_ok_iff.mp h
  obtain ⟨hne, groups, hread, hcount, rfl, -⟩ := compile_eq_ok_iff.mp h
  have hmarks : (allValues groups).Disjoint space.bound := fun mark hmark =>
    hfree ((mem_keys_compiled hcount).mpr hmark)
  exact ⟨_, _, compile_eq_ok_iff.mpr
    ⟨hne, groups, (readGroups_iff_alone hne).mpr ⟨hread, hmarks⟩, hcount, rfl, rfl⟩⟩

/-- What is compiled in a namespace is what is compiled alone, up to its placeholders, and its value
    placeholders, which were free, are taken. -/
theorem expanded_of_compile (h : compile space text values = .ok (c, after)) :
    ∃ alone, compileAlone text values = .ok alone ∧
      (Dict.keys alone.values).Disjoint space.bound ∧ c.expanded = alone.expanded ∧
        ∀ mark, mark ∈ after.bound ↔ mark ∈ space.bound ∨ mark ∈ Dict.keys alone.values := by
  obtain ⟨hne, groups, hread, hcount, rfl, rfl⟩ := compile_eq_ok_iff.mp h
  obtain ⟨hread, hmarks⟩ := (readGroups_iff_alone hne).mp hread
  have halone := (@compile_eq_ok_iff {} _ _ values _).mpr ⟨hne, groups, hread, hcount, rfl, rfl⟩
  refine ⟨_, compileAlone_eq_ok_iff.mpr ⟨_, halone⟩, fun mark hmark => ?_, ?_, fun mark => ?_⟩
  · exact hmarks ((mem_keys_compiled hcount).mp hmark)
  · have hvalid := (valid_of_readGroups hne hread).1
    have hexpand : ∀ there, (compiled (addNames there (allNames groups)) groups values).expand =
        String.ofList (writeGroups String.toList groups) := fun there =>
      expand_compiled values hvalid fun name hname => mem_addNames.mpr (.inr hname)
    rw [Compiled.expanded, Compiled.expanded, hexpand, hexpand]
    rfl
  · rw [mem_keys_compiled hcount, List.mem_append]

end Alone

/-! ## Other placeholders for the names -/

/-- A condition with other placeholders for its names. -/
def Compiled.rename (f : String → String) (c : Compiled) : Compiled :=
  { c with
    text := expandText (Dict.ofList (c.names.map fun entry => (entry.1, f entry.1))) c.text
    names := Dict.ofList (c.names.map fun entry => (f entry.1, entry.2)) }

section Renamed

variable {all others : List String} {groups : List (List Term)} {f : String → String}

/-- A compiled condition with the placeholders of another namespace is what is compiled there. -/
theorem rename_compiled (values : List Json) (hvalid : ∀ group ∈ groups, ∀ term ∈ group, term.Valid)
    (hall : ∀ name ∈ allNames groups, name ∈ all)
    (hothers : ∀ name ∈ allNames groups, name ∈ others)
    (hf : ∀ name ∈ allNames groups, f (placeholderOf all name) = placeholderOf others name) :
    (compiled all groups values).rename f = compiled others groups values := by
  have hentries : ∀ {entry : String × String}, entry ∈ (compiled all groups values).names ↔
      ∃ name ∈ allNames groups, entry = (placeholderOf all name, name) :=
    mem_names_compiled values hall
  have hnames : Dict.ofList ((compiled all groups values).names.map fun entry =>
      (f entry.1, entry.2)) = (compiled others groups values).names := by
    refine ofList_congr (fun entry => ?_) fun mark name other hname hother => ?_
    · rw [List.mem_map, List.mem_map]
      constructor
      · rintro ⟨_, hentry, rfl⟩
        obtain ⟨name, hname, rfl⟩ := hentries.mp hentry
        exact ⟨name, hname, Prod.ext (hf name hname).symm rfl⟩
      · rintro ⟨name, hname, rfl⟩
        exact ⟨_, hentries.mpr ⟨name, hname, rfl⟩, Prod.ext (hf name hname) rfl⟩
    · obtain ⟨_, hmem, heq⟩ := List.mem_map.mp hname
      obtain ⟨_, _, heq'⟩ := List.mem_map.mp hother
      obtain ⟨hmark, rfl⟩ := Prod.mk.inj heq
      obtain ⟨hmark', rfl⟩ := Prod.mk.inj heq'
      exact placeholderOf_injective (hothers _ hmem) (hmark.trans hmark'.symm)
  have htext : expandText (Dict.ofList ((compiled all groups values).names.map fun entry =>
      (entry.1, f entry.1))) (compiled all groups values).text =
        (compiled others groups values).text := by
    refine congrArg String.ofList (expandFrom_compiled values hvalid fun name hname =>
      ⟨placeholderOf others name, (get?_ofList_eq_some_iff fun mark new other h h' => ?_).mpr ?_,
        rfl⟩)
    · -- what stands for a placeholder depends on the placeholder only
      obtain ⟨_, _, heq⟩ := List.mem_map.mp h
      obtain ⟨_, _, heq'⟩ := List.mem_map.mp h'
      obtain ⟨rfl, rfl⟩ := Prod.mk.inj heq
      obtain ⟨hmark, rfl⟩ := Prod.mk.inj heq'
      rw [hmark]
    · exact List.mem_map.mpr ⟨_, hentries.mpr ⟨name, hname, rfl⟩, Prod.ext rfl (hf name hname)⟩
  rw [Compiled.rename, htext, hnames]
  rfl

/-- What is compiled in a namespace is what is compiled alone, with other placeholders. -/
theorem exists_rename_of_compile {space after : Namespace} {text : String} {values : List Json}
    {c : Compiled} (h : compile space text values = .ok (c, after)) :
    ∃ alone, compileAlone text values = .ok alone ∧
      ∃ f : String → String, Set.InjOn f {mark | mark ∈ Dict.keys alone.names} ∧
        alone.rename f = c := by
  obtain ⟨hne, groups, hread, hcount, rfl, -⟩ := compile_eq_ok_iff.mp h
  obtain ⟨hread, -⟩ := (readGroups_iff_alone hne).mp hread
  obtain ⟨hvalid, -⟩ := valid_of_readGroups hne hread
  have halone := (@compile_eq_ok_iff {} _ _ values _).mpr ⟨hne, groups, hread, hcount, rfl, rfl⟩
  refine ⟨_, compileAlone_eq_ok_iff.mpr ⟨_, halone⟩, ?_⟩
  have hadded : ∀ there, ∀ name ∈ allNames groups, name ∈ addNames there (allNames groups) :=
    fun there name hname => mem_addNames.mpr (.inr hname)
  let all := addNames [] (allNames groups)
  let others := addNames space.names (allNames groups)
  let f : String → String := fun mark =>
    placeholderOf others ((Dict.get? (compiled all groups values).names mark).getD mark)
  have hf : ∀ name ∈ allNames groups, f (placeholderOf all name) = placeholderOf others name := by
    intro name hname
    have hstands : Dict.get? (compiled all groups values).names (placeholderOf all name) =
        some name := get?_names_compiled values (hadded []) hname
    simp only [f, hstands, Option.getD_some]
  refine ⟨f, fun mark hmark other hother heq => ?_,
    rename_compiled values hvalid (hadded []) (hadded space.names) hf⟩
  obtain ⟨entry, hentry, rfl⟩ := List.mem_map.mp hmark
  obtain ⟨entry', hentry', rfl⟩ := List.mem_map.mp hother
  obtain ⟨name, hname, rfl⟩ := (mem_names_compiled values (hadded [])).mp hentry
  obtain ⟨name', hname', rfl⟩ := (mem_names_compiled values (hadded [])).mp hentry'
  have hsame : placeholderOf others name = placeholderOf others name' :=
    (hf name hname).symm.trans (heq.trans (hf name' hname'))
  rw [placeholderOf_injective (hadded space.names name hname) hsame]

/-- In any namespace a condition is compiled if it is compiled alone and its value placeholders are
    free. Both results have the same expansion, the same values and the same terms, and the names of
    one have other placeholders in the other, different ones for different ones. -/
theorem compile_renames_alone (space : Namespace) (text : String) (values : List Json) :
    ((∃ c after, compile space text values = .ok (c, after)) ↔
      ∃ alone, compileAlone text values = .ok alone ∧
        (Dict.keys alone.values).Disjoint space.bound) ∧
    ∀ c after, compile space text values = .ok (c, after) →
      ∃ alone, compileAlone text values = .ok alone ∧ c.expand = alone.expand ∧
        c.values = alone.values ∧ c.terms = alone.terms ∧
          ∃ f : String → String, Set.InjOn f {mark | mark ∈ Dict.keys alone.names} ∧
            alone.rename f = c := by
  refine ⟨⟨?_, ?_⟩, fun c after h => ?_⟩
  · rintro ⟨c, after, h⟩
    obtain ⟨alone, halone, hfree, -⟩ := expanded_of_compile h
    exact ⟨alone, halone, hfree⟩
  · rintro ⟨alone, halone, hfree⟩
    exact exists_compile halone hfree
  · obtain ⟨alone, halone, -, hexpanded, -⟩ := expanded_of_compile h
    obtain ⟨alone', halone', hrename⟩ := exists_rename_of_compile h
    obtain rfl := Except.ok.inj (halone.symm.trans halone')
    have hvalues : c.expanded.values = alone.expanded.values := congrArg Compiled.values hexpanded
    have hterms : c.expanded.terms = alone.expanded.terms := congrArg Compiled.terms hexpanded
    exact ⟨alone, halone, congrArg Compiled.text hexpanded, hvalues, hterms, hrename⟩

/-- A name has the placeholder of its place in the namespace, and the first one alone. -/
example :
    let space : Namespace := ⟨["rank", "year"], [":low"]⟩
    ∃ alone after, compileAlone "year > :high" [.null] = .ok alone ∧ alone.text = "#n0 > :high" ∧
      compile space "year > :high" [.null] = .ok (alone.rename fun _ => "#n1", after) :=
  ⟨_, _, rfl, by decide, rfl⟩

end Renamed

end TableClient.Condition
