import Mathlib
import TableClient.Proofs.Condition.Placeholders

/-!
# Conditions that share a namespace

The conditions of one request are compiled one after another in one namespace. A condition that is
refused leaves the namespace as it was, and a condition that is compiled only adds to it, so what is
known of the conditions compiled before still holds: each has the placeholders of the namespace for
its names, and no two share a value placeholder. That is all that joining conditions asks for.

Results:
* `addNames_eq`: names that are added are numbered in the order of their first occurrence.
* `Shares.compile`, `Shares.join`: a condition that is compiled, or joined from two, is one more of
  those that share the namespace.
* `compileEach_shares`: what a sequence of compiles makes of a namespace and of its results.
-/

namespace TableClient.Condition

/-! ## Names in the order of their first occurrence -/

/-- Names that are added are numbered in the order of their first occurrence. -/
theorem addNames_eq (there names : List String) :
    addNames there names = there ++ (names.filter (· ∉ there)).eraseDups := by
  induction names generalizing there with
  | nil => simp [addNames]
  | cons first names ih =>
    rw [addNames, ih]
    by_cases hfirst : first ∈ there
    · simp [hfirst]
    · have hfilter : names.filter (· ∉ there ++ [first]) =
          (names.filter (· ∉ there)).filter fun name => !name == first := by
        rw [List.filter_filter]
        refine List.filter_congr fun name _ => ?_
        by_cases hname : name = first <;> simp [hname, hfirst]
      have hnew : there.contains first = false := by simpa using hfirst
      rw [hnew, if_neg Bool.false_ne_true, List.filter_cons_of_pos (by simpa using hfirst),
        List.eraseDups_cons, hfilter, List.append_assoc]
      rfl

theorem addNames_append (there names more : List String) :
    addNames there (names ++ more) = addNames (addNames there names) more := by
  induction names generalizing there with
  | nil => rfl
  | cons first names ih => rw [List.cons_append, addNames, addNames, ih]

/-- The names have the placeholders of the places in order. -/
theorem map_placeholderOf {names : List String} (h : names.Nodup) :
    names.map (placeholderOf names) = (List.range names.length).map placeholder := by
  refine List.ext_getElem (by simp) fun place hplace _ => ?_
  rw [List.getElem_map, List.getElem_map, List.getElem_range, placeholderOf,
    h.idxOf_getElem place (by simpa using hplace)]

/-- A name keeps its placeholder when names are added behind it. -/
theorem placeholderOf_grows {there names : List String} (h : there <+: names) {name : String}
    (hname : name ∈ there) : placeholderOf names name = placeholderOf there name := by
  obtain ⟨more, rfl⟩ := h
  rw [placeholderOf, placeholderOf, List.idxOf_append_of_mem hname]

/-! ## Conditions of a namespace -/

/-- A condition that has the placeholders of a namespace. -/
structure Compiled.Within (space : Namespace) (c : Compiled) : Prop where
  /-- A name has the placeholder that the namespace gives it. -/
  names : ∀ entry ∈ c.names, entry.2 ∈ space.names ∧ entry.1 = placeholderOf space.names entry.2
  /-- The value placeholders are taken. -/
  values : ∀ mark ∈ Dict.keys c.values, mark ∈ space.bound
  closed : c.Closed

/-- Conditions that share a namespace and no value placeholder. -/
structure Shares (space : Namespace) (conditions : List Compiled) : Prop where
  within : ∀ c ∈ conditions, c.Within space
  apart : conditions.Pairwise fun c d => (Dict.keys c.values).Disjoint (Dict.keys d.values)

theorem shares_nil (space : Namespace) : Shares space [] := ⟨by simp, List.Pairwise.nil⟩

section
variable {space after : Namespace} {text : String} {values : List Json} {c : Compiled}

/-- The names of the attributes that a condition mentions, in the order of its text. -/
def Compiled.mentioned (c : Compiled) : List String :=
  (placeholdersIn '#' c.text.toList).filterMap (Dict.get? c.names)

/-- A compile adds the names that the condition mentions to the namespace. -/
theorem names_of_compile (h : compile space text values = .ok (c, after)) :
    after.names = addNames space.names c.mentioned := by
  obtain ⟨groups, hvalid, -, -, rfl, rfl⟩ := exists_terms_of_compile h
  have hall : ∀ name ∈ allNames groups, name ∈ addNames space.names (allNames groups) :=
    fun name hname => mem_addNames.mpr (.inr hname)
  have hmentioned : (compiled (addNames space.names (allNames groups)) groups values).mentioned =
      allNames groups := by
    rw [Compiled.mentioned, (placeholdersIn_compiled values hvalid).1, List.filterMap_map]
    refine (List.filterMap_congr fun name hname => ?_).trans List.filterMap_some
    exact get?_names_compiled values hall hname
  rw [hmentioned]

/-- A compiled condition has the placeholders of the namespace behind it, and its value placeholders
    were free before. -/
theorem within_of_compile (h : compile space text values = .ok (c, after)) :
    c.Within after ∧ (Dict.keys c.values).Disjoint space.bound := by
  have hclosed := closed_of_compile h
  obtain ⟨groups, -, hfresh, hcount, rfl, rfl⟩ := exists_terms_of_compile h
  refine ⟨⟨fun entry hentry => ?_, fun mark hmark => ?_, hclosed⟩, fun mark hmark hbound => ?_⟩
  · rcases Dict.mem_of_mem_insertAll hentry with hnil | hentry
    · exact absurd hnil List.not_mem_nil
    · obtain ⟨name, hname, rfl⟩ := List.mem_map.mp hentry
      exact ⟨mem_addNames.mpr (.inr hname), rfl⟩
  · exact List.mem_append_right _ ((mem_keys_compiled hcount).mp hmark)
  · exact hfresh.unused mark ((mem_keys_compiled hcount).mp hmark) hbound

/-- A condition of a namespace stays one when the namespace grows. -/
theorem Compiled.Within.of_compile {d : Compiled} (hd : d.Within space)
    (h : compile space text values = .ok (c, after)) : d.Within after := by
  have hmore : space.names <+: after.names := by
    rw [names_of_compile h]
    exact prefix_addNames _ _
  refine ⟨fun entry hentry => ?_, fun mark hmark => ?_, hd.closed⟩
  · obtain ⟨hname, hmark⟩ := hd.names entry hentry
    exact ⟨hmore.subset hname, by rw [placeholderOf_grows hmore hname, hmark]⟩
  · exact (compile_bound h).subset (hd.values mark hmark)

end

namespace Shares

variable {space after : Namespace} {conditions others : List Compiled}

/-- A condition that is compiled is one more of those that share the namespace. -/
theorem compile (h : Shares space conditions) {text : String} {values : List Json} {c : Compiled}
    (hc : Condition.compile space text values = .ok (c, after)) :
    Shares after (c :: conditions) := by
  obtain ⟨hwithin, hfree⟩ := within_of_compile hc
  refine ⟨List.forall_mem_cons.mpr ⟨hwithin, fun d hd => (h.within d hd).of_compile hc⟩, ?_⟩
  refine List.pairwise_cons.mpr ⟨fun d hd mark hmark hother => ?_, h.apart⟩
  exact hfree hmark ((h.within d hd).values mark hother)

theorem perm (h : Shares space conditions) (hperm : conditions.Perm others) :
    Shares space others :=
  ⟨fun c hc => h.within c (hperm.mem_iff.mpr hc),
    hperm.pairwise h.apart fun hdisjoint => hdisjoint.symm⟩

/-- Two of the conditions can be joined, and what they are joined to shares the namespace with the
    others. -/
theorem join {c d : Compiled} (h : Shares space (c :: d :: conditions))
    (connective : Compiled.Connective) :
    ∃ joined, Compiled.join connective c d = .ok joined ∧ Shares space (joined :: conditions) := by
  obtain ⟨hc, hrest⟩ := List.forall_mem_cons.mp h.within
  obtain ⟨hd, hrest⟩ := List.forall_mem_cons.mp hrest
  obtain ⟨hcapart, hapart⟩ := List.pairwise_cons.mp h.apart
  obtain ⟨hdapart, hapart⟩ := List.pairwise_cons.mp hapart
  -- a placeholder that both know stands for the name at its place in the namespace
  have hnames : Compiled.nameConflict? c.names d.names = none := by
    rw [Compiled.nameConflict?, Option.map_eq_none_iff, List.find?_eq_none]
    intro entry hentry hconflict
    obtain ⟨name, hname, hne⟩ := (Option.any_eq_true _ _).mp hconflict
    obtain ⟨hmem, hmark⟩ := hc.names _ (Dict.mem_of_get? hname)
    have hother := (hd.names entry hentry).2
    exact (by simpa using hne : name ≠ entry.2)
      (placeholderOf_injective hmem (hmark.symm.trans hother))
  have hvalues : Compiled.valueConflict? c.values d.values = none := by
    rw [Compiled.valueConflict?, Option.map_eq_none_iff, List.find?_eq_none]
    intro entry hentry hconflict
    obtain ⟨value, hvalue⟩ := Option.isSome_iff_exists.mp hconflict
    exact hcapart d List.mem_cons_self (Dict.mem_keys_of_get? hvalue)
      (List.mem_map_of_mem hentry)
  have hjoin : ∃ joined, Compiled.join connective c d = .ok joined ∧
      joined.names = Dict.insertAll c.names d.names ∧
      joined.values = Dict.insertAll c.values d.values := by
    rw [Compiled.join, hnames, hvalues]
    exact ⟨_, rfl, rfl, rfl⟩
  obtain ⟨joined, hjoined, hjoinedNames, hjoinedValues⟩ := hjoin
  have hkeys : ∀ mark ∈ Dict.keys joined.values,
      mark ∈ Dict.keys c.values ∨ mark ∈ Dict.keys d.values := fun mark hmark =>
    Dict.mem_keys_insertAll.mp (hjoinedValues ▸ hmark)
  refine ⟨joined, hjoined, List.forall_mem_cons.mpr ⟨⟨?_, ?_, ?_⟩, hrest⟩,
    List.pairwise_cons.mpr ⟨?_, hapart⟩⟩
  · intro entry hentry
    rw [hjoinedNames] at hentry
    exact (Dict.mem_of_mem_insertAll hentry).elim (hc.names entry) (hd.names entry)
  · intro mark hmark
    exact (hkeys mark hmark).elim (hc.values mark) (hd.values mark)
  · exact hc.closed.join hd.closed hjoined
  · intro other hother mark hmark hmem
    rcases hkeys mark hmark with hmark | hmark
    · exact hcapart other (List.mem_cons_of_mem d hother) hmark hmem
    · exact hdapart other hother hmark hmem

end Shares

/-! ## Combinations -/

/-- A way to join some of a number of conditions by `AND` and `OR`. -/
inductive Combination (count : ℕ) where
  | single (place : Fin count)
  | join (connective : Compiled.Connective) (left right : Combination count)

namespace Combination

variable {count : ℕ}

/-- The places of the conditions that are joined, in order. -/
def places : Combination count → List (Fin count)
  | single place => [place]
  | join _ left right => left.places ++ right.places

/-- The conditions joined. -/
def value (conditions : Fin count → Compiled) :
    Combination count → Except ConditionError Compiled
  | single place => .ok (conditions place)
  | join connective left right => do
    Compiled.join connective (← left.value conditions) (← right.value conditions)

/-- A combination of conditions that share a namespace succeeds, and its result shares the namespace
    with the conditions that it has not used. -/
theorem shares_value {space : Namespace} {conditions : Fin count → Compiled}
    (combination : Combination count) {rest : List Compiled}
    (h : Shares space (combination.places.map conditions ++ rest)) :
    ∃ joined, combination.value conditions = .ok joined ∧ Shares space (joined :: rest) := by
  induction combination generalizing rest with
  | single place => exact ⟨conditions place, rfl, h⟩
  | join connective left right ihleft ihright =>
    rw [places, List.map_append, List.append_assoc] at h
    obtain ⟨first, hfirst, h⟩ := ihleft h
    -- the result on the left waits behind the conditions of the right side
    obtain ⟨second, hsecond, h⟩ := ihright (h.perm List.perm_middle.symm)
    obtain ⟨joined, hjoined, h⟩ := (h.perm (List.Perm.swap first second rest)).join connective
    refine ⟨joined, ?_, h⟩
    rw [value, hfirst, hsecond]
    exact hjoined

end Combination

/-! ## Sequences of compiles -/

/-- A compile that is asked for: the text of a condition and its values. -/
abbrev Call := String × List Json

/-- Compiles conditions one after another in a namespace. The result has the outcome of each call
    and the namespace behind them. -/
def compileEach (space : Namespace) :
    List Call → List (Except ConditionError Compiled) × Namespace
  | [] => ([], space)
  | (text, values) :: calls =>
    match compile space text values with
    | .ok (c, after) =>
      let more := compileEach after calls
      (.ok c :: more.1, more.2)
    | .error error =>
      let more := compileEach space calls
      (.error error :: more.1, more.2)

/-- The conditions that were compiled, in order. -/
def accepted (results : List (Except ConditionError Compiled)) : List Compiled :=
  results.filterMap Except.toOption

/-- The calls that were not refused, in order. -/
def succeeding (space : Namespace) (calls : List Call) : List Call :=
  ((calls.zip (compileEach space calls).1).filter fun call => call.2.isOk).map Prod.fst

section
variable {space : Namespace}

/-- The namespace behind a sequence of compiles has the names that the conditions mention. -/
theorem names_compileEach (calls : List Call) : (compileEach space calls).2.names =
    addNames space.names ((accepted (compileEach space calls).1).flatMap Compiled.mentioned) := by
  induction calls generalizing space with
  | nil => rfl
  | cons call calls ih =>
    obtain ⟨text, values⟩ := call
    rw [compileEach]
    split
    · rename_i c after hc
      rw [ih, names_of_compile hc, ← addNames_append]
      rfl
    · exact ih

/-- The conditions compiled in a sequence share the namespace with those compiled before. -/
theorem shares_compileEach {before : List Compiled} (h : Shares space before) (calls : List Call) :
    Shares (compileEach space calls).2 (before ++ accepted (compileEach space calls).1) := by
  induction calls generalizing space before with
  | nil => simpa [compileEach, accepted] using h
  | cons call calls ih =>
    obtain ⟨text, values⟩ := call
    rw [compileEach]
    split
    · rename_i c after hc
      have hmore := ih ((h.compile hc).perm (List.perm_append_singleton c before).symm)
      rwa [List.append_assoc] at hmore
    · exact ih h

/-- Without the calls that are refused, the others have the same results. -/
theorem compileEach_succeeding (calls : List Call) :
    compileEach space (succeeding space calls) =
      ((compileEach space calls).1.filter Except.isOk, (compileEach space calls).2) := by
  induction calls generalizing space with
  | nil => rfl
  | cons call calls ih =>
    obtain ⟨text, values⟩ := call
    cases hcall : compile space text values with
    | ok result =>
      obtain ⟨c, after⟩ := result
      have hkept : succeeding space ((text, values) :: calls) =
          (text, values) :: succeeding after calls := by
        simp [succeeding, compileEach, hcall, Except.isOk, Except.toBool]
      rw [hkept, compileEach, hcall, compileEach, hcall]
      simp only [ih]
      rfl
    | error error =>
      have hkept : succeeding space ((text, values) :: calls) = succeeding space calls := by
        simp [succeeding, compileEach, hcall, Except.isOk, Except.toBool]
      rw [hkept, compileEach, hcall, ih]
      rfl

end

/-- What a sequence of compiles makes of an empty namespace: the names are numbered from `#n0` on in
    the order in which the compiled conditions first mention them, each compiled condition has these
    placeholders for its names, no two share a value placeholder, the calls that were refused have
    changed nothing, and conditions can be joined in any way that uses each of them once. -/
theorem compileEach_shares (calls : List Call) :
    let results := (compileEach {} calls).1
    let last := (compileEach {} calls).2
    last.names = ((accepted results).flatMap Compiled.mentioned).eraseDups ∧
      last.names.map (placeholderOf last.names) =
        (List.range last.names.length).map placeholder ∧
      (∀ name ∈ last.names, ∀ other ∈ last.names,
        placeholderOf last.names name = placeholderOf last.names other → name = other) ∧
      (∀ c ∈ accepted results, ∀ entry ∈ c.names,
        entry.2 ∈ last.names ∧ entry.1 = placeholderOf last.names entry.2) ∧
      ((accepted results).Pairwise fun c d =>
        (Dict.keys c.values).Disjoint (Dict.keys d.values)) ∧
      compileEach {} (succeeding {} calls) = (results.filter Except.isOk, last) ∧
      ∀ combination : Combination (accepted results).length, combination.places.Nodup →
        ∃ joined, combination.value (accepted results).get = .ok joined := by
  intro results last
  have hnames : last.names = addNames [] ((accepted results).flatMap Compiled.mentioned) :=
    names_compileEach calls
  have hshares : Shares last (accepted results) := shares_compileEach (shares_nil {}) calls
  have hnodup : last.names.Nodup := by
    rw [hnames]
    exact nodup_addNames List.nodup_nil _
  refine ⟨?_, map_placeholderOf hnodup, fun name hname other _ => placeholderOf_injective hname,
    fun c hc => (hshares.within c hc).names, hshares.apart, compileEach_succeeding calls, ?_⟩
  · rw [hnames, addNames_eq]
    simp
  · intro combination hplaces
    have hused : Shares last (combination.places.map (accepted results).get ++ []) := by
      rw [List.append_nil]
      refine ⟨fun c hc => ?_, List.pairwise_map.mpr (hplaces.imp fun {place other} hne => ?_)⟩
      · obtain ⟨place, -, rfl⟩ := List.mem_map.mp hc
        exact hshares.within _ (List.get_mem _ _)
      · have hapart := List.pairwise_iff_get.mp hshares.apart
        rcases lt_or_gt_of_ne hne with hlt | hlt
        · exact hapart place other hlt
        · exact (hapart other place hlt).symm
    obtain ⟨joined, hjoined, -⟩ := combination.shares_value hused
    exact ⟨joined, hjoined⟩

/-- A condition with too few values is refused and takes no placeholder. -/
example : (compileEach {} [("b = :x AND a = :y", [.int 1, .int 2]), ("c = :z", []),
    ("NOT a IN (:z)", [.int 3])]).2 = ⟨["b", "a"], [":x", ":y", ":z"]⟩ := by rfl

end TableClient.Condition
