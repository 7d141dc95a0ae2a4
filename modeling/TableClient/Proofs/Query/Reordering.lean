import Mathlib
import TableClient.Proofs.Query.Building
import TableClient.Proofs.Condition.Renaming

/-!
# Queries built in another order

Calls of different methods on a query may change places. The placeholders of names are numbered in
the order of the calls, so the queries are the same only with the names in their place. A call fails
for its own sake, or because it does not go together with a call before it, and then that one does
not go together with it either.

Results:
* `Step.fault?_eq_none_iff`: a call succeeds if it fits and goes together with those before.
* `build_error?_eq_none_iff`: a query has no error if its calls fit and go together two by two.
* `expanded_build`: the query with its conditions expanded is put together call by call.
* `Sound.plan_expanded`: a query may be expanded before it is planned or after that.
* `plan_reordered`: the same calls in another order plan the same request, up to its placeholders.
-/

namespace TableClient

open Condition (Compiled Shares compileAlone expandText)

namespace Query

/-! ## Calls in another order -/

/-- The methods of a query. -/
inductive Method where
  | onIndex
  | hashFilter
  | rangeFilter
  | addFilter
  | descending
  | consistently
  | limitTo
deriving DecidableEq

namespace Step

/-- The method that is called. -/
def method : Step → Method
  | onIndex _ => .onIndex
  | hashFilter _ _ => .hashFilter
  | rangeFilter _ _ => .rangeFilter
  | addFilter _ _ => .addFilter
  | descending => .descending
  | consistently => .consistently
  | limitTo _ => .limitTo

end Step

/-- The same calls in another order, in which the calls of one method have kept theirs. -/
structure Reordered (steps others : List Step) : Prop where
  perm : steps.Perm others
  keeps : ∀ method, steps.filter (·.method = method) = others.filter (·.method = method)

/-! ## Calls on their own -/

namespace Step

/-- The condition that a call compiles. -/
def condition? : Step → Option Condition.Call
  | hashFilter name value => some (name ++ " = :hv", [value])
  | rangeFilter condition values => some (condition, values)
  | addFilter condition values => some (condition, values)
  | onIndex _ | descending | consistently | limitTo _ => none

/-- What the condition of a call is compiled to alone. -/
def alone? (step : Step) : Option Compiled :=
  step.condition?.bind fun call => (compileAlone call.1 call.2).toOption

/-- The value placeholders of the condition of a call. -/
def marks (step : Step) : List String := (step.alone?.map fun c => Dict.keys c.values).getD []

/-- Whether a call succeeds on a query without conditions. -/
def Fits (step : Step) : Prop :=
  match step with
  | hashFilter name _ => name.isEmpty = false ∧ step.alone?.isSome
  | rangeFilter _ _ => (step.alone?.bind Compiled.onlyShape?).any isRangeShape
  | addFilter _ _ => step.alone?.isSome
  | limitTo limit => limit ≠ 0
  | onIndex _ | descending | consistently => True

/-- Whether two calls go together: a query has one condition on the hash attribute and one on the
    range attribute, and a value placeholder is used once. -/
structure Compatible (step other : Step) : Prop where
  once : step.method = other.method → step.method ≠ .hashFilter ∧ step.method ≠ .rangeFilter
  apart : step.marks.Disjoint other.marks

theorem Compatible.symm {step other : Step} (h : step.Compatible other) : other.Compatible step :=
  ⟨fun hsame => hsame ▸ h.once hsame.symm, h.apart.symm⟩

/-- The query with expanded conditions after a call. -/
def extend (query : Query) (step : Step) : Query :=
  let condition := step.alone?.map Compiled.expanded
  match step with
  | onIndex name => { query with index := some name }
  | hashFilter _ _ => { query with hash := condition }
  | rangeFilter _ _ => { query with range := condition }
  | addFilter _ _ => { query with filter := (both query.filter condition).toOption.join }
  | descending => { query with forward := false }
  | consistently => { query with consistent := true }
  | limitTo limit => { query with limit := some limit }

/-- Calls of different methods change different parts of a query. -/
theorem extend_comm {step other : Step} (h : step.method ≠ other.method) (query : Query) :
    other.extend (step.extend query) = step.extend (other.extend query) := by
  cases step <;> cases other <;> first | rfl | exact absurd rfl h

end Step

/-- What is put together in steps does not depend on their order, but for those of one kind. -/
theorem foldl_eq_of_filter_eq {α β κ : Type} [DecidableEq κ] {kind : α → κ} {f : β → α → β}
    (hcomm : ∀ b x y, kind x ≠ kind y → f (f b x) y = f (f b y) x) {xs ys : List α}
    (h : ∀ k, xs.filter (kind · = k) = ys.filter (kind · = k)) (b : β) :
    xs.foldl f b = ys.foldl f b := by
  induction xs generalizing ys b with
  | nil =>
    cases ys with
    | nil => rfl
    | cons y ys => simpa using h (kind y)
  | cons x xs ih =>
    -- the first of its kind among the others can be brought to the front
    have hfirst : ys.filter (kind · = kind x) = x :: xs.filter (kind · = kind x) := by
      rw [← h, List.filter_cons_of_pos (by simp)]
    obtain ⟨front, rest, rfl, hfront, -, -⟩ := List.filter_eq_cons_iff.mp hfirst
    have hother : ∀ y ∈ front, kind y ≠ kind x := fun y hy => by simpa using hfront y hy
    have hmove : ∀ b, front.foldl f (f b x) = f (front.foldl f b) x := by
      intro b
      clear hfirst hfront h
      induction front generalizing b with
      | nil => rfl
      | cons y front ihfront =>
        have hy := hother y List.mem_cons_self
        rw [List.foldl_cons, List.foldl_cons, hcomm b x y hy.symm]
        exact ihfront (fun z hz => hother z (List.mem_cons_of_mem y hz)) (f b y)
    have hrest : ∀ k, xs.filter (kind · = k) = (front ++ rest).filter (kind · = k) := by
      intro k
      have hk := h k
      rw [List.filter_append, List.filter_cons, List.filter_cons] at hk
      rw [List.filter_append]
      by_cases hkind : kind x = k
      · have hnone : front.filter (kind · = k) = [] :=
          List.filter_eq_nil_iff.mpr fun y hy => by simpa [← hkind] using hother y hy
        rw [hnone] at hk ⊢
        simpa [hkind] using hk
      · simpa [hkind] using hk
    rw [List.foldl_cons, ih hrest, List.foldl_append, List.foldl_append, hmove, List.foldl_cons]

/-! ## Calls on a query -/

variable {query : Query} {step : Step} {text : String} {values : List Json} {c : Compiled}
  {names : Condition.Namespace}

namespace Step

/-- What compiling the condition of a call in a query has led to. -/
structure Compiles (step : Step) (query : Query) (c : Compiled) (names : Condition.Namespace) :
    Prop where
  alone : step.alone?.map Compiled.expanded = some c.expanded
  free : step.marks.Disjoint query.names.bound
  bound : ∀ mark, mark ∈ names.bound ↔ mark ∈ query.names.bound ∨ mark ∈ step.marks

theorem alone?_of_condition (h : step.condition? = some (text, values)) :
    step.alone? = (compileAlone text values).toOption := by
  rw [alone?, h]
  rfl

theorem marks_of_alone (h : step.alone? = some c) : step.marks = Dict.keys c.values := by
  rw [marks, h]
  rfl

theorem compiles_of_compile (hcondition : step.condition? = some (text, values))
    (h : query.compile text values = .ok (c, names)) : step.Compiles query c names := by
  obtain ⟨alone, halone, hfree, hexpanded, hbound⟩ :=
    Condition.expanded_of_compile (compile_eq_ok_iff.mp h)
  have hstep : step.alone? = some alone := by
    rw [alone?_of_condition hcondition, halone]
    rfl
  have hmarks := marks_of_alone hstep
  refine ⟨?_, hmarks ▸ hfree, hmarks ▸ hbound⟩
  rw [hstep, hexpanded]
  rfl

/-- The condition of a call is compiled in a query if it is compiled alone and its value
    placeholders are free. -/
theorem exists_compile (hcondition : step.condition? = some (text, values))
    (halone : step.alone?.isSome) (hfree : step.marks.Disjoint query.names.bound) :
    ∃ c names, query.compile text values = .ok (c, names) := by
  obtain ⟨alone, hstep⟩ := Option.isSome_iff_exists.mp halone
  have hcompile : compileAlone text values = .ok alone := by
    rw [alone?_of_condition hcondition] at hstep
    cases h : compileAlone text values with
    | error error => rw [h] at hstep; cases hstep
    | ok c => rw [h] at hstep; cases hstep; rfl
  rw [marks_of_alone hstep] at hfree
  obtain ⟨c, names, h⟩ := Condition.exists_compile hcompile hfree
  exact ⟨c, names, compile_eq_ok_iff.mpr h⟩

theorem Compiles.isSome (h : step.Compiles query c names) : step.alone?.isSome := by
  have := h.alone
  cases halone : step.alone? with
  | none => simp [halone] at this
  | some alone => rfl

/-- Whether a condition can restrict a range attribute is known from the condition alone. -/
theorem Compiles.onlyShape? (h : step.Compiles query c names) :
    step.alone?.bind Compiled.onlyShape? = c.onlyShape? := by
  have halone := h.alone
  cases hstep : step.alone? with
  | none => simp [hstep] at halone
  | some alone =>
    have hexpanded : alone.expanded = c.expanded := by simpa [hstep] using halone
    have hsame : alone.expanded.onlyShape? = c.expanded.onlyShape? := by rw [hexpanded]
    exact hsame

theorem Fits.isSome (h : step.Fits) (hcondition : step.condition? = some (text, values)) :
    step.alone?.isSome := by
  cases step with
  | hashFilter name value => exact h.2
  | rangeFilter condition values =>
    rw [Fits] at h
    cases halone : (rangeFilter condition values).alone? with
    | none => simp [halone] at h
    | some c => rfl
  | addFilter condition values => exact h
  | onIndex | descending | consistently | limitTo => cases hcondition

/-- The condition of a call that fits is refused only for a value placeholder that is taken. -/
theorem Fits.not_disjoint {error : Error} (h : step.Fits)
    (hcondition : step.condition? = some (text, values))
    (herror : query.compile text values = .error error) :
    ¬ step.marks.Disjoint query.names.bound := by
  intro hfree
  obtain ⟨c, names, hcompile⟩ := exists_compile hcondition (h.isSome hcondition) hfree
  rw [herror] at hcompile
  cases hcompile

/-- A call on a query without an error succeeds if it fits, the query has no such part and the value
    placeholders are free. -/
theorem fault?_eq_none_iff (query : Query) (step : Step) : step.fault? query = none ↔
    step.Fits ∧ (step.method = .hashFilter → query.hash = none) ∧
      (step.method = .rangeFilter → query.range = none) ∧
        step.marks.Disjoint query.names.bound := by
  cases step with
  | onIndex name => simp [fault?, Fits, method, marks, alone?, condition?]
  | descending => simp [fault?, Fits, method, marks, alone?, condition?]
  | consistently => simp [fault?, Fits, method, marks, alone?, condition?]
  | limitTo limit => simp [fault?, Fits, method, marks, alone?, condition?]
  | hashFilter name value =>
    have hcondition : (hashFilter name value).condition? = some (name ++ " = :hv", [value]) := rfl
    rw [fault?]
    split_ifs with hname hhash
    · simp [Fits, hname]
    · simp [method, Option.isSome_iff_ne_none.mp hhash]
    · cases hcompile : query.compile (name ++ " = :hv") [value] with
      | error error =>
        exact iff_of_false (by simp) fun h => h.1.not_disjoint hcondition hcompile h.2.2.2
      | ok result =>
        have h := compiles_of_compile hcondition hcompile
        simpa [Fits, method, h.isSome, h.free, hname] using hhash
  | rangeFilter condition values =>
    have hcondition : (rangeFilter condition values).condition? = some (condition, values) := rfl
    rw [fault?]
    split_ifs with hrange
    · simp [method, Option.isSome_iff_ne_none.mp hrange]
    · cases hcompile : query.compile condition values with
      | error error =>
        exact iff_of_false (by simp) fun h => h.1.not_disjoint hcondition hcompile h.2.2.2
      | ok result =>
        have h := compiles_of_compile hcondition hcompile
        have hnone : query.range = none := Option.not_isSome_iff_eq_none.mp hrange
        simp [Fits, method, h.onlyShape?, h.free, hnone]
  | addFilter condition values =>
    have hcondition : (addFilter condition values).condition? = some (condition, values) := rfl
    rw [fault?]
    cases hcompile : query.compile condition values with
    | error error =>
      exact iff_of_false (by simp) fun h => h.1.not_disjoint hcondition hcompile h.2.2.2
    | ok result =>
      have h := compiles_of_compile hcondition hcompile
      simp [Fits, method, h.isSome, h.free]

end Step

/-- The query with its conditions expanded. -/
def expanded (query : Query) : Query :=
  { query with
    names := {}
    hash := query.hash.map Compiled.expanded
    range := query.range.map Compiled.expanded
    filter := query.filter.map Compiled.expanded }

/-- Conditions that share a namespace may be expanded before they are joined or after that, and
    either may be missing. -/
theorem both_expanded {space : Condition.Namespace} {first second joined : Option Compiled}
    {others : List Compiled} (h : Shares space (first.toList ++ second.toList ++ others))
    (hjoined : both first second = .ok joined) :
    both (first.map Compiled.expanded) (second.map Compiled.expanded) =
      .ok (joined.map Compiled.expanded) := by
  cases first with
  | none =>
    obtain rfl : second = joined := by cases second <;> exact Except.ok.inj hjoined
    cases second <;> rfl
  | some first =>
    cases second with
    | none =>
      obtain rfl := Except.ok.inj hjoined
      rfl
    | some second =>
      obtain ⟨c, hc, -⟩ := Shares.join h .and
      have hexpanded := Shares.join_expanded h hc
      simp only [both, hc, Except.mapError, bind, Except.bind, pure, Except.pure] at hjoined
      obtain rfl := Except.ok.inj hjoined
      simp only [both, Option.map_some, hexpanded, Except.mapError]
      rfl

/-- A condition that is compiled in a query shares the namespace with the filter and the other
    conditions. -/
theorem Sound.shares_filter (h : query.Sound)
    (hcompile : query.compile text values = .ok (c, names)) :
    Shares names (query.filter.toList ++ (some c).toList ++
      (query.hash.toList ++ query.range.toList)) := by
  refine (h.compile (compile_eq_ok_iff.mp hcompile)).perm ?_
  rw [parts, List.append_assoc query.filter.toList]
  exact (List.perm_append_comm.cons c).trans List.perm_middle.symm

/-- A filter is joined to the one before it, if there is one. -/
theorem addFilter_of_both {joined : Option Compiled} (hnone : query.error? = none)
    (hcompile : query.compile text values = .ok (c, names))
    (hjoined : both query.filter (some c) = .ok joined) :
    query.addFilter text values = { query with names, filter := joined } := by
  rw [addFilter, hcompile]
  cases hfilter : query.filter with
  | none =>
    rw [hfilter] at hjoined
    obtain rfl := Except.ok.inj hjoined
    exact attempt_ok hnone _
  | some filter =>
    rw [hfilter] at hjoined
    obtain ⟨_, hc, hsome⟩ := Condition.bind_eq_ok_iff.mp hjoined
    obtain rfl := Except.ok.inj hsome
    simp only [bind, Except.bind, pure, Except.pure, hc, attempt_ok hnone]

/-- A call that succeeds adds to the query with expanded conditions, and takes its value
    placeholders. -/
theorem Step.apply_expanded (h : query.Sound) (hnone : query.error? = none)
    (hfault : step.fault? query = none) :
    (step.apply query).expanded = step.extend query.expanded ∧
      ∀ mark, mark ∈ (step.apply query).names.bound ↔
        mark ∈ query.names.bound ∨ mark ∈ step.marks := by
  have hmarks : step.condition? = none → step.marks = [] := by
    intro hcondition
    rw [marks, alone?, hcondition]
    rfl
  cases step with
  | onIndex name =>
    rw [apply, Query.onIndex, attempt_ok hnone, hmarks rfl]
    exact ⟨rfl, by simp⟩
  | descending =>
    rw [hmarks rfl]
    exact ⟨rfl, by simp [apply, Query.descending]⟩
  | consistently =>
    rw [hmarks rfl]
    exact ⟨rfl, by simp [apply, Query.consistently]⟩
  | limitTo limit =>
    rw [fault?] at hfault
    split_ifs at hfault with hlimit
    rw [apply, Query.limitTo, if_neg hlimit, attempt_ok hnone, hmarks rfl]
    exact ⟨rfl, by simp⟩
  | hashFilter name value =>
    rw [fault?] at hfault
    split_ifs at hfault with hname hhash
    cases hcompile : query.compile (name ++ " = :hv") [value] with
    | error error => simp [hcompile] at hfault
    | ok result =>
      obtain ⟨c, names⟩ := result
      have hstep : (hashFilter name value).Compiles query c names :=
        compiles_of_compile rfl hcompile
      rw [apply, Query.hashFilter, if_neg hname, if_neg hhash, hcompile]
      simp only [bind, Except.bind, pure, Except.pure, attempt_ok hnone]
      refine ⟨?_, hstep.bound⟩
      simp only [extend, hstep.alone]
      rfl
  | rangeFilter condition values =>
    rw [fault?] at hfault
    split_ifs at hfault with hrange
    cases hcompile : query.compile condition values with
    | error error => simp [hcompile] at hfault
    | ok result =>
      obtain ⟨c, names⟩ := result
      have hstep : (rangeFilter condition values).Compiles query c names :=
        compiles_of_compile rfl hcompile
      have hshape : c.onlyShape?.any isRangeShape = true := by simpa [hcompile] using hfault
      rw [apply, Query.rangeFilter, if_neg hrange, hcompile]
      simp only [bind, Except.bind, pure, Except.pure, hshape, if_true, attempt_ok hnone]
      refine ⟨?_, hstep.bound⟩
      simp only [extend, hstep.alone]
      rfl
  | addFilter condition values =>
    rw [fault?] at hfault
    cases hcompile : query.compile condition values with
    | error error => simp [hcompile] at hfault
    | ok result =>
      obtain ⟨c, names⟩ := result
      have hstep : (addFilter condition values).Compiles query c names :=
        compiles_of_compile rfl hcompile
      have hshares := h.shares_filter hcompile
      obtain ⟨joined, hjoined, -, -⟩ := exists_both hshares
      have hexpanded := both_expanded hshares hjoined
      have happly : (addFilter condition values).apply query =
          { query with names, filter := joined } := addFilter_of_both hnone hcompile hjoined
      rw [happly]
      refine ⟨?_, hstep.bound⟩
      have hfilter : both query.expanded.filter ((addFilter condition values).alone?.map
          Compiled.expanded) = .ok (joined.map Compiled.expanded) := by
        rw [hstep.alone]
        exact hexpanded
      rw [extend, hfilter]
      rfl

/-! ## Calls one after another -/

variable {table : String} {steps others : List Step}

/-- What is known of a query without an error from the calls that built it. -/
structure Built (table : String) (steps : List Step) (query : Query) : Prop where
  sound : query.Sound
  expanded : query.expanded = steps.foldl Step.extend (onTable table).expanded
  hash : query.hash = none ↔ ∀ step ∈ steps, step.method ≠ .hashFilter
  range : query.range = none ↔ ∀ step ∈ steps, step.method ≠ .rangeFilter
  bound : ∀ mark, mark ∈ query.names.bound ↔ ∃ step ∈ steps, mark ∈ step.marks

theorem expanded_hash_eq_none_iff : query.expanded.hash = none ↔ query.hash = none :=
  Option.map_eq_none_iff

theorem expanded_range_eq_none_iff : query.expanded.range = none ↔ query.range = none :=
  Option.map_eq_none_iff

theorem Step.Fits.extend_hash (h : step.Fits) (query : Query) :
    (step.extend query).hash = none ↔ query.hash = none ∧ step.method ≠ .hashFilter := by
  cases step with
  | hashFilter name value =>
    have hsome := Option.isSome_iff_ne_none.mp (h.isSome rfl)
    simp [Step.extend, Step.method, hsome]
  | onIndex | rangeFilter | addFilter | descending | consistently | limitTo =>
    simp [Step.extend, Step.method]

theorem Step.Fits.extend_range (h : step.Fits) (query : Query) :
    (step.extend query).range = none ↔ query.range = none ∧ step.method ≠ .rangeFilter := by
  cases step with
  | rangeFilter condition values =>
    have hsome := Option.isSome_iff_ne_none.mp (h.isSome rfl)
    simp [Step.extend, Step.method, hsome]
  | onIndex | hashFilter | addFilter | descending | consistently | limitTo =>
    simp [Step.extend, Step.method]

theorem built_nil (table : String) : Built table [] (onTable table) :=
  ⟨sound_build table [], rfl, by simp [onTable], by simp [onTable], by simp [onTable]⟩

namespace Built

/-- A call succeeds if it fits and goes together with the calls before. -/
theorem fault?_eq_none_iff (h : Built table steps query) (step : Step) :
    step.fault? query = none ↔ step.Fits ∧ ∀ before ∈ steps, before.Compatible step := by
  rw [step.fault?_eq_none_iff query, h.hash, h.range]
  refine and_congr_right fun _ => ⟨?_, fun hcompatible => ⟨?_, ?_, ?_⟩⟩
  · rintro ⟨hhash, hrange, hfree⟩ before hbefore
    refine ⟨fun hsame => ⟨fun hmethod => ?_, fun hmethod => ?_⟩, fun mark hmark hother => ?_⟩
    · exact hhash (hsame.symm.trans hmethod) before hbefore hmethod
    · exact hrange (hsame.symm.trans hmethod) before hbefore hmethod
    · exact hfree hother ((h.bound mark).mpr ⟨before, hbefore, hmark⟩)
  · intro hmethod before hbefore hsame
    exact ((hcompatible before hbefore).once (hsame.trans hmethod.symm)).1 hsame
  · intro hmethod before hbefore hsame
    exact ((hcompatible before hbefore).once (hsame.trans hmethod.symm)).2 hsame
  · intro mark hmark hbound
    obtain ⟨before, hbefore, hother⟩ := (h.bound mark).mp hbound
    exact (hcompatible before hbefore).apart hother hmark

/-- A call that succeeds is one more of the calls that built the query. -/
theorem snoc (h : Built table steps query) (hnone : query.error? = none)
    (hfault : step.fault? query = none) : Built table (steps ++ [step]) (step.apply query) := by
  have hfits := ((step.fault?_eq_none_iff query).mp hfault).1
  obtain ⟨hexpanded, hbound⟩ := Step.apply_expanded h.sound hnone hfault
  constructor
  · exact step.sound_apply h.sound
  · rw [hexpanded, h.expanded, List.foldl_append]
    rfl
  · rw [← expanded_hash_eq_none_iff, hexpanded, hfits.extend_hash, expanded_hash_eq_none_iff,
      h.hash, List.forall_mem_append, List.forall_mem_singleton]
  · rw [← expanded_range_eq_none_iff, hexpanded, hfits.extend_range, expanded_range_eq_none_iff,
      h.range, List.forall_mem_append, List.forall_mem_singleton]
  · intro mark
    rw [hbound, h.bound]
    simp [or_and_right, exists_or]

end Built

theorem error?_build_snoc (table : String) (steps : List Step) (step : Step) :
    (build table (steps ++ [step])).error? = none ↔
      (build table steps).error? = none ∧ step.fault? (build table steps) = none := by
  rw [build_append]
  exact (step.error_apply (sound_build table steps)) ▸ Option.or_eq_none_iff

/-- What calls have made of a query is known if they have left no error. -/
theorem built_build (h : (build table steps).error? = none) :
    Built table steps (build table steps) := by
  induction steps using List.reverseRecOn with
  | nil => exact built_nil table
  | append_singleton steps step ih =>
    obtain ⟨hnone, hfault⟩ := (error?_build_snoc table steps step).mp h
    rw [build_append]
    exact (ih hnone).snoc hnone hfault

/-- A query has no error if the table has a name, every call fits and the calls go together two by
    two. -/
theorem build_error?_eq_none_iff (table : String) (steps : List Step) :
    (build table steps).error? = none ↔ table.isEmpty = false ∧ (∀ step ∈ steps, step.Fits) ∧
      steps.Pairwise Step.Compatible := by
  induction steps using List.reverseRecOn with
  | nil =>
    rw [build, List.foldl_nil, onTable]
    by_cases htable : table.isEmpty <;> simp [htable]
  | append_singleton steps step ih =>
    rw [error?_build_snoc, List.pairwise_append, List.forall_mem_append, List.forall_mem_singleton]
    constructor
    · rintro ⟨hnone, hfault⟩
      obtain ⟨htable, hfits, hpairs⟩ := ih.mp hnone
      obtain ⟨hfit, hlast⟩ := ((built_build hnone).fault?_eq_none_iff step).mp hfault
      exact ⟨htable, ⟨hfits, hfit⟩, hpairs, List.pairwise_singleton _ step, by simpa using hlast⟩
    · rintro ⟨htable, ⟨hfits, hfit⟩, hpairs, -, hlast⟩
      have hnone := ih.mpr ⟨htable, hfits, hpairs⟩
      exact ⟨hnone, ((built_build hnone).fault?_eq_none_iff step).mpr ⟨hfit, by simpa using hlast⟩⟩

/-- The same calls in another order leave no error either. -/
theorem Reordered.error?_eq_none_iff (h : Reordered steps others) (table : String) :
    (build table steps).error? = none ↔ (build table others).error? = none := by
  rw [build_error?_eq_none_iff, build_error?_eq_none_iff, h.perm.pairwise_iff Step.Compatible.symm]
  simp only [h.perm.mem_iff]

/-- The same calls in another order build the same query, up to the placeholders of names. -/
theorem Reordered.expanded_build (h : Reordered steps others)
    (hnone : (build table steps).error? = none) :
    (build table steps).expanded = (build table others).expanded := by
  have hother := (h.error?_eq_none_iff table).mp hnone
  rw [(built_build hnone).expanded, (built_build hother).expanded]
  exact foldl_eq_of_filter_eq (fun query step other hne => Step.extend_comm hne query) h.keeps _

end Query

/-! ## Plans -/

namespace PageRequest

/-- The request with the names in place of their placeholders. -/
def expanded : PageRequest → PageRequest
  | query input => query { input with
      keyCondition := expandText input.names input.keyCondition
      filter := input.filter.map (expandText input.names)
      names := [] }
  | scan input => scan { input with
      filter := input.filter.map (expandText input.names)
      names := [] }

end PageRequest

namespace Query

variable {query : Query} {table : String} {steps others : List Step}

/-- Two conditions of a namespace, either of which may be missing, can be expanded with the names of
    both. -/
theorem expandText_mergedNames {space : Condition.Namespace} {first second : Option Compiled}
    (h : ∀ c ∈ first.toList ++ second.toList, c.Within space) :
    ∀ c ∈ first.toList ++ second.toList,
      expandText (mergedNames first second) c.text = c.expanded.text := by
  have hagrees : ∀ {c? : Option Compiled}, (∀ c ∈ c?.toList, c.Within space) →
      Condition.Agrees space ((c?.map Compiled.names).getD []) := by
    intro c? hc
    cases c? with
    | none => exact fun entry hentry => absurd hentry List.not_mem_nil
    | some c => exact (hc c List.mem_cons_self).names
  obtain ⟨hfirst, hsecond⟩ := List.forall_mem_append.mp h
  have hmerged : Condition.Agrees space (mergedNames first second) :=
    (hagrees hfirst).insertAll (hagrees hsecond)
  exact fun c hc => (h c hc).expandText_eq hmerged fun mark hmark =>
    PageRequest.mem_keys_merged.mpr ⟨c, hc, hmark⟩

theorem map_expandText_mergedNames {space : Condition.Namespace} {first second : Option Compiled}
    (h : ∀ c ∈ first.toList ++ second.toList, c.Within space) :
    (first.map Compiled.text).map (expandText (mergedNames first second)) =
        (first.map Compiled.expanded).map Compiled.text ∧
      (second.map Compiled.text).map (expandText (mergedNames first second)) =
        (second.map Compiled.expanded).map Compiled.text := by
  have htext := expandText_mergedNames h
  rw [Option.map_map, Option.map_map, Option.map_map, Option.map_map]
  constructor
  · exact Option.map_congr fun c hc => htext c (List.mem_append_left _ (Option.mem_toList.mpr hc))
  · exact Option.map_congr fun c hc => htext c (List.mem_append_right _ (Option.mem_toList.mpr hc))

theorem mergedNames_expanded (first second : Option Compiled) :
    mergedNames (first.map Compiled.expanded) (second.map Compiled.expanded) = [] := by
  cases first <;> cases second <;> rfl

theorem mergedValues_expanded (first second : Option Compiled) :
    mergedValues (first.map Compiled.expanded) (second.map Compiled.expanded) =
      mergedValues first second := by
  cases first <;> cases second <;> rfl

/-- A query may be expanded before it is planned or after that. -/
theorem Sound.plan_expanded (h : query.Sound) (hnone : query.error? = none) :
    ∃ request, query.plan = .ok request ∧ query.expanded.plan = .ok request.expanded := by
  have hnone' : query.expanded.error? = none := hnone
  rw [plan, plan, hnone, hnone']
  cases hhash : query.hash with
  | some hash =>
    rw [Sound, parts, hhash] at h
    obtain ⟨key?, hboth, hsome, hshares⟩ := exists_both h
    obtain ⟨key, rfl⟩ := Option.isSome_iff_exists.mp hsome
    have hhash' : query.expanded.hash = some hash.expanded := congrArg (Option.map _) hhash
    have hboth' : both (some hash.expanded) query.expanded.range = .ok (some key.expanded) :=
      both_expanded h hboth
    obtain ⟨hkey, hfilter⟩ := map_expandText_mergedNames hshares.within
    have hnames : mergedNames (some key.expanded) query.expanded.filter = [] :=
      mergedNames_expanded (some key) query.filter
    have hvalues : mergedValues (some key.expanded) query.expanded.filter =
        mergedValues (some key) query.filter := mergedValues_expanded (some key) query.filter
    simp only [hhash', hboth, hboth', bind, Except.bind, pure, Except.pure, Option.getD_some,
      hnames, hvalues]
    refine ⟨_, rfl, ?_⟩
    simp only [PageRequest.expanded, Option.some.inj hkey, hfilter]
    rfl
  | none =>
    rw [Sound, parts, hhash] at h
    have hparts : Shares query.names (query.filter.toList ++ query.range.toList ++ []) := by
      simpa using h.perm List.perm_append_comm
    obtain ⟨filter?, hboth, -, hshares⟩ := exists_both hparts
    have hhash' : query.expanded.hash = none := congrArg (Option.map _) hhash
    have hboth' : both query.expanded.filter query.expanded.range =
        .ok (filter?.map Compiled.expanded) := both_expanded hparts hboth
    obtain ⟨hfilter, -⟩ := @map_expandText_mergedNames _ filter? none hshares.within
    have hnames := mergedNames_expanded filter? none
    have hvalues := mergedValues_expanded filter? none
    rw [Option.map_none] at hnames hvalues
    simp only [hhash', hboth, hboth', bind, Except.bind, pure, Except.pure, hnames, hvalues]
    refine ⟨_, rfl, ?_⟩
    simp only [PageRequest.expanded, hfilter]
    rfl

/-- The same calls in another order, in which the calls of one method have kept theirs, leave no
    error either, and plan the same request, up to the placeholders of names. -/
theorem plan_reordered (table : String) (steps others : List Step) (h : Reordered steps others) :
    ((build table steps).error? = none ↔ (build table others).error? = none) ∧
      ((build table steps).error? = none → ∃ request other, (build table steps).plan = .ok request ∧
        (build table others).plan = .ok other ∧ request.expanded = other.expanded) := by
  refine ⟨h.error?_eq_none_iff table, fun hnone => ?_⟩
  have hother := (h.error?_eq_none_iff table).mp hnone
  obtain ⟨request, hplan, hexpanded⟩ := (sound_build table steps).plan_expanded hnone
  obtain ⟨other, hplan', hexpanded'⟩ := (sound_build table others).plan_expanded hother
  rw [h.expanded_build hnone, hexpanded'] at hexpanded
  exact ⟨request, other, hplan, hplan', (Except.ok.inj hexpanded).symm⟩

/-- The calls of `albumSteps` in another order, which numbers the names in another way. -/
def reorderedAlbumSteps : List Step :=
  [.limitTo 5, .hashFilter "album" (.string "Low"),
    .rangeFilter "no BETWEEN :a AND :b" [.number (.int 1), .number (.int 9)],
    .addFilter "plays > :p OR attribute_exists(meta.tags[0])" [.number (.int 10)],
    .addFilter "contains(title, :t) AND NOT plays = :q" [.string "Be", .number (.int 12)],
    .onIndex "by-album", .descending]

theorem reordered_albumSteps : Reordered albumSteps reorderedAlbumSteps := by
  have hplaces : (List.range 7).Perm [6, 1, 3, 0, 4, 2, 5] := by decide
  exact ⟨hplaces.map fun place => albumSteps.getD place .descending, fun method => by
    cases method <;> rfl⟩

/-- What the calls ask for in that order. -/
def reorderedAlbumQuery : Protocol.Query :=
  { albumQuery with
    keyCondition := "#n0 = :hv AND #n1 BETWEEN :a AND :b"
    filter := some
      "(#n2 > :p OR attribute_exists(#n3.#n4[0])) AND (contains(#n5, :t) AND NOT #n2 = :q)"
    names := [("#n0", "album"), ("#n1", "no"), ("#n2", "plays"), ("#n3", "meta"),
      ("#n4", "tags"), ("#n5", "title")] }

theorem plan_reordered_albumSteps : Reordered albumSteps reorderedAlbumSteps ∧
    (build "tracks" albumSteps).error? = none ∧
      (build "tracks" albumSteps).plan = .ok (.query albumQuery) ∧
      (build "tracks" reorderedAlbumSteps).plan = .ok (.query reorderedAlbumQuery) ∧
      (PageRequest.query albumQuery).expanded =
        (PageRequest.query reorderedAlbumQuery).expanded := by
  have hnone : (build "tracks" albumSteps).error? = none := by rfl
  have hquery : (build "tracks" albumSteps).plan = .ok (.query albumQuery) := by rfl
  have hother : (build "tracks" reorderedAlbumSteps).plan = .ok (.query reorderedAlbumQuery) := by
    rfl
  obtain ⟨-, hplans⟩ :=
    plan_reordered "tracks" albumSteps reorderedAlbumSteps reordered_albumSteps
  obtain ⟨request, other, hplan, hplan', hexpanded⟩ := hplans hnone
  obtain rfl := Except.ok.inj (hquery.symm.trans hplan)
  obtain rfl := Except.ok.inj (hother.symm.trans hplan')
  exact ⟨reordered_albumSteps, hnone, hquery, hother, hexpanded⟩

end Query

end TableClient
