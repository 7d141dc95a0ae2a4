import Mathlib
import TableClient.Query.Pages
import TableClient.Proofs.Condition.Sharing

/-!
# Building and planning queries

A query is built by any calls in any order. Its conditions are compiled in its own namespace, so the
parts that it holds at any time can be joined: neither a filter that is added to another one nor the
plan of the whole query can fail. A call fails for the reasons that can be read off the query and
the call; the first call that fails leaves its error, and what is called later changes nothing
about it.

Results:
* `Step.apply_cases`: all that a call does to a query without an error.
* `exists_both`: the parts of a query can be joined.
* `build_error`: which error a query has, and what running it does.
* `plan_closed`: the planned request binds exactly the placeholders that its conditions use.
-/

namespace TableClient

open Condition (Compiled Shares placeholdersIn)

/-! ## Calls -/

namespace Query

/-- A call on a query that is being built. -/
inductive Step where
  | onIndex (name : String)
  | hashFilter (name : String) (value : Json)
  | rangeFilter (condition : String) (values : List Json)
  | addFilter (condition : String) (values : List Json)
  | descending
  | consistently
  | limitTo (limit : UInt64)

namespace Step

/-- The query after a call. -/
def apply (query : Query) : Step → Query
  | onIndex name => query.onIndex name
  | hashFilter name value => query.hashFilter name value
  | rangeFilter condition values => query.rangeFilter condition values
  | addFilter condition values => query.addFilter condition values
  | descending => query.descending
  | consistently => query.consistently
  | limitTo limit => query.limitTo limit

/-- Why a call on a query without an error fails, if it does. -/
def fault? (query : Query) : Step → Option Error
  | hashFilter name value =>
    if name.isEmpty then some (.query .emptyHashName)
    else if query.hash.isSome then some (.query .hashAlreadySet)
    else
      match query.compile (name ++ " = :hv") [value] with
      | .error error => some error
      | .ok _ => none
  | rangeFilter condition values =>
    if query.range.isSome then some (.query .rangeAlreadySet)
    else
      match query.compile condition values with
      | .error error => some error
      | .ok (compiled, _) =>
        if compiled.onlyShape?.any isRangeShape then none
        else some (.query (.rangeShape condition))
  | addFilter condition values =>
    match query.compile condition values with
    | .error error => some error
    | .ok _ => none
  | limitTo limit => if limit = 0 then some (.query .zeroLimit) else none
  | onIndex _ | descending | consistently => none

end Step

/-- The query that calls on a table build, one after another. -/
def build (table : String) (steps : List Step) : Query := steps.foldl Step.apply (onTable table)

theorem build_append (table : String) (steps more : List Step) :
    build table (steps ++ more) = more.foldl Step.apply (build table steps) := by
  rw [build, List.foldl_append]
  rfl

/-! ## Steps -/

/-- The conditions that a query holds. -/
def parts (query : Query) : List Compiled :=
  query.hash.toList ++ query.range.toList ++ query.filter.toList

/-- The conditions of a query share its namespace. -/
def Sound (query : Query) : Prop := Shares query.names query.parts

variable {query : Query}

theorem attempt_ok (h : query.error? = none) (next : Query) : query.attempt (.ok next) = next := by
  simp [attempt, h]

theorem attempt_error (h : query.error? = none) (error : Error) :
    query.attempt (.error error) = { query with error? := some error } := by
  simp [attempt, h]

theorem compile_eq_ok_iff {condition : String} {values : List Json} {c : Compiled}
    {names : Condition.Namespace} : query.compile condition values = .ok (c, names) ↔
      Condition.compile query.names condition values = .ok (c, names) := by
  rw [compile]
  cases Condition.compile query.names condition values <;> simp [Except.mapError]

/-- All that a call does to a query without an error: it fails and leaves its error, or it leaves no
    error and the conditions still share the namespace. -/
theorem Step.apply_cases (h : query.Sound) (hnone : query.error? = none) (step : Step) :
    (∃ error, step.fault? query = some error ∧
      step.apply query = { query with error? := some error }) ∨
    (step.fault? query = none ∧ (step.apply query).error? = none ∧ (step.apply query).Sound) := by
  cases step with
  | onIndex name =>
    rw [apply, Query.onIndex, attempt_ok hnone]
    exact .inr ⟨rfl, hnone, h⟩
  | descending => exact .inr ⟨rfl, hnone, h⟩
  | consistently => exact .inr ⟨rfl, hnone, h⟩
  | limitTo limit =>
    rw [apply, Query.limitTo, fault?]
    split_ifs
    · exact .inl ⟨_, rfl, attempt_error hnone _⟩
    · rw [attempt_ok hnone]
      exact .inr ⟨rfl, hnone, h⟩
  | hashFilter name value =>
    rw [apply, Query.hashFilter, fault?]
    split_ifs with hname hhash
    · exact .inl ⟨_, rfl, attempt_error hnone _⟩
    · exact .inl ⟨_, rfl, attempt_error hnone _⟩
    · cases hcompile : query.compile (name ++ " = :hv") [value] with
      | error error => exact .inl ⟨error, rfl, attempt_error hnone error⟩
      | ok result =>
        obtain ⟨c, names⟩ := result
        have hmore := h.compile (compile_eq_ok_iff.mp hcompile)
        rw [parts, Option.not_isSome_iff_eq_none.mp hhash] at hmore
        simp only [bind, Except.bind, pure, Except.pure, attempt_ok hnone]
        exact .inr ⟨trivial, hnone, hmore⟩
  | rangeFilter condition values =>
    rw [apply, Query.rangeFilter, fault?]
    split_ifs with hrange
    · exact .inl ⟨_, rfl, attempt_error hnone _⟩
    · cases hcompile : query.compile condition values with
      | error error => exact .inl ⟨error, rfl, attempt_error hnone error⟩
      | ok result =>
        obtain ⟨c, names⟩ := result
        have hmore := h.compile (compile_eq_ok_iff.mp hcompile)
        rw [parts, Option.not_isSome_iff_eq_none.mp hrange] at hmore
        simp only [bind, Except.bind, pure, Except.pure]
        split_ifs
        · rw [attempt_ok hnone]
          refine .inr ⟨rfl, hnone, hmore.perm ?_⟩
          simpa [parts] using List.perm_middle.symm
        · exact .inl ⟨_, rfl, attempt_error hnone _⟩
  | addFilter condition values =>
    rw [apply, Query.addFilter, fault?]
    cases hcompile : query.compile condition values with
    | error error => exact .inl ⟨error, rfl, attempt_error hnone error⟩
    | ok result =>
      obtain ⟨c, names⟩ := result
      have hmore := h.compile (compile_eq_ok_iff.mp hcompile)
      simp only [bind, Except.bind, pure, Except.pure]
      rw [parts] at hmore
      cases hfilter : query.filter with
      | none =>
        rw [hfilter, Option.toList_none, List.append_nil] at hmore
        simp only [attempt_ok hnone]
        exact .inr ⟨trivial, hnone, hmore.perm (List.perm_append_singleton c _).symm⟩
      | some filter =>
        rw [hfilter] at hmore
        have hperm : (c :: (query.hash.toList ++ query.range.toList ++ [filter])).Perm
            (filter :: c :: (query.hash.toList ++ query.range.toList)) :=
          ((List.perm_append_singleton filter _).cons c).trans (List.Perm.swap filter c _)
        obtain ⟨joined, hjoined, hshares⟩ := (hmore.perm hperm).join .and
        simp only [hjoined, Except.mapError, attempt_ok hnone]
        exact .inr ⟨trivial, hnone, hshares.perm (List.perm_append_singleton joined _).symm⟩

/-- A call on a query with an error leaves the error and the conditions. -/
theorem Step.apply_of_error {error : Error} (h : query.error? = some error) (step : Step) :
    (step.apply query).error? = some error ∧ (step.apply query).parts = query.parts ∧
      (step.apply query).names = query.names := by
  have hkeeps : ∀ {next : Query}, next = query → next.error? = some error ∧
      next.parts = query.parts ∧ next.names = query.names := by
    rintro next rfl
    exact ⟨h, rfl, rfl⟩
  cases step with
  | descending | consistently => exact ⟨h, rfl, rfl⟩
  | onIndex | hashFilter | rangeFilter | addFilter | limitTo =>
    refine hkeeps ?_
    unfold apply
    exact attempt_of_error h _

/-- Every call keeps the conditions of a query in its namespace. -/
theorem Step.sound_apply (h : query.Sound) (step : Step) : (step.apply query).Sound := by
  cases herror : query.error? with
  | some error =>
    obtain ⟨-, hparts, hnames⟩ := step.apply_of_error herror
    rwa [Sound, hparts, hnames]
  | none =>
    obtain ⟨error, -, happly⟩ | ⟨-, -, hsound⟩ := step.apply_cases h herror
    · rw [happly]
      exact h
    · exact hsound

theorem sound_build (table : String) (steps : List Step) : (build table steps).Sound := by
  have hrun : ∀ {query : Query}, query.Sound → (steps.foldl Step.apply query).Sound := by
    induction steps with
    | nil => exact fun h => h
    | cons step steps ih => exact fun h => ih (step.sound_apply h)
  exact hrun (Condition.shares_nil _)

/-- The error behind a call is the one before it, and without one it is that of the call. -/
theorem Step.error_apply (h : query.Sound) (step : Step) :
    (step.apply query).error? = query.error?.or (step.fault? query) := by
  cases herror : query.error? with
  | some error => exact (step.apply_of_error herror).1
  | none =>
    obtain ⟨error, hfault, happly⟩ | ⟨hfault, hnone, -⟩ := step.apply_cases h herror
    · rw [happly, hfault]
      rfl
    · rw [hnone, hfault]
      rfl

/-! ## Planning -/

/-- Parts that share a namespace can be joined, and what they are joined to shares it with the
    others. -/
theorem exists_both {space : Condition.Namespace} {first second : Option Compiled}
    {others : List Compiled} (h : Shares space (first.toList ++ second.toList ++ others)) :
    ∃ joined, both first second = .ok joined ∧ joined.isSome = (first.isSome || second.isSome) ∧
      Shares space (joined.toList ++ others) := by
  cases first with
  | none => exact ⟨second, by cases second <;> rfl, rfl, h⟩
  | some first =>
    cases second with
    | none => exact ⟨some first, rfl, rfl, h⟩
    | some second =>
      obtain ⟨joined, hjoined, hshares⟩ := Shares.join h .and
      refine ⟨some joined, ?_, rfl, hshares⟩
      simp only [both, hjoined, Except.mapError]
      rfl

end Query

namespace PageRequest

/-- The conditions of a request: the key condition, if there is one, and the filter. -/
def conditions : PageRequest → List String
  | query input => input.keyCondition :: input.filter.toList
  | scan input => input.filter.toList

/-- What the placeholders of names stand for. -/
def names : PageRequest → Dict String
  | query input => input.names
  | scan input => input.names

/-- What the placeholders of values stand for. -/
def values : PageRequest → Dict Attribute
  | query input => input.values
  | scan input => input.values

/-- A request that binds exactly the placeholders of its conditions. -/
structure Closed (request : PageRequest) : Prop where
  names : ∀ mark, (∃ text ∈ request.conditions, mark ∈ placeholdersIn '#' text.toList) ↔
    mark ∈ Dict.keys request.names
  values : ∀ mark, (∃ text ∈ request.conditions, mark ∈ placeholdersIn ':' text.toList) ↔
    mark ∈ Dict.keys request.values

theorem mem_keys_merged {α : Type} {bound : Compiled → Dict α} {first second : Option Compiled}
    {mark : String} : mark ∈ Dict.keys
        (Dict.insertAll ((first.map bound).getD []) ((second.map bound).getD [])) ↔
      ∃ c ∈ first.toList ++ second.toList, mark ∈ Dict.keys (bound c) := by
  rw [Dict.mem_keys_insertAll]
  cases first <;> cases second <;> simp [Dict.keys]

/-- A request is closed if it has the texts of closed conditions and merges what they bind. -/
theorem closed_of_merged {request : PageRequest} {first second : Option Compiled}
    (h : ∀ c ∈ first.toList ++ second.toList, c.Closed)
    (hconditions : request.conditions = (first.toList ++ second.toList).map Compiled.text)
    (hnames : request.names = Query.mergedNames first second)
    (hvalues : request.values = Query.mergedValues first second) : request.Closed := by
  constructor
  · intro mark
    rw [hconditions, hnames, Query.mergedNames, mem_keys_merged]
    simp only [List.mem_map, exists_exists_and_eq_and]
    exact exists_congr fun c => and_congr_right fun hc => (h c hc).names mark
  · intro mark
    rw [hconditions, hvalues, Query.mergedValues, mem_keys_merged]
    simp only [List.mem_map, exists_exists_and_eq_and]
    exact exists_congr fun c => and_congr_right fun hc => (h c hc).values mark

end PageRequest

namespace Query

variable {query : Query}

/-- A query without an error can be planned, and the planned request is closed. -/
theorem Sound.exists_plan (h : query.Sound) (hnone : query.error? = none) :
    ∃ request, query.plan = .ok request ∧ request.Closed := by
  rw [plan, hnone]
  cases hhash : query.hash with
  | some hash =>
    rw [Sound, parts, hhash] at h
    obtain ⟨key?, hboth, hsome, hshares⟩ := exists_both h
    obtain ⟨key, rfl⟩ := Option.isSome_iff_exists.mp hsome
    simp only [hboth, bind, Except.bind, pure, Except.pure]
    refine ⟨_, rfl, ?_⟩
    refine PageRequest.closed_of_merged (fun c hc => (hshares.within c hc).closed) ?_ rfl rfl
    cases query.filter <;> rfl
  | none =>
    rw [Sound, parts, hhash] at h
    have hparts : Shares query.names (query.filter.toList ++ query.range.toList ++ []) := by
      simpa using h.perm List.perm_append_comm
    obtain ⟨filter?, hboth, -, hshares⟩ := exists_both hparts
    simp only [hboth, bind, Except.bind, pure, Except.pure]
    refine ⟨_, rfl, ?_⟩
    refine PageRequest.closed_of_merged (fun c hc => (hshares.within c hc).closed) ?_ rfl rfl
    cases filter? <;> rfl

/-- Running a query sends what was planned, for the first page. -/
theorem run_of_plan {request : PageRequest} (h : query.plan = .ok request) :
    query.run.request? = some (request.toRequest none query.limit) := by
  rw [run, h]
  have hlimit : ({ request, limit := query.limit : Pages }.remaining).map UInt64.ofNat =
      query.limit := by
    cases hquery : query.limit with
    | none => rfl
    | some limit => simp [Pages.remaining]
  show some (request.toRequest none _) = _
  rw [hlimit]

theorem run_of_error {error : Error} (h : query.error? = some error) :
    query.run = .done (.error error) := by
  rw [run, plan, h]

/-- Which error a query has, and what running it does: an empty table name is an error at once,
    otherwise the first call that fails leaves its error, which stays whatever is called later.
    Running a query with an error gives that error and sends nothing; any other query can be
    planned, and running it sends one request for the first page. -/
theorem build_error (table : String) (steps : List Step) :
    (build table []).error? = (if table.isEmpty then some (.query .emptyTableName) else none) ∧
    (∀ step, (build table (steps ++ [step])).error? =
      (build table steps).error?.or (step.fault? (build table steps))) ∧
    (∀ error more, (build table steps).error? = some error →
      (build table (steps ++ more)).error? = some error) ∧
    (∀ error, (build table steps).error? = some error →
      (build table steps).run = .done (.error error)) ∧
    ((build table steps).error? = none → ∃ request, (build table steps).plan = .ok request ∧
      (build table steps).run.request? =
        some (request.toRequest none (build table steps).limit)) := by
  refine ⟨rfl, fun step => ?_, fun error more herror => ?_,
    fun error herror => run_of_error herror, fun hnone => ?_⟩
  · rw [build_append]
    exact step.error_apply (sound_build table steps)
  · rw [build_append]
    generalize build table steps = query at herror
    induction more generalizing query with
    | nil => exact herror
    | cons step more ih => exact ih _ (step.apply_of_error herror).1
  · obtain ⟨request, hplan, -⟩ := (sound_build table steps).exists_plan hnone
    exact ⟨request, hplan, run_of_plan hplan⟩

/-- A limit of zero is an error, and the name behind it is not looked at. -/
example : (build "tracks" [.limitTo 0, .hashFilter "" .null]).error? =
    some (.query .zeroLimit) := by
  rfl

/-- The planned request of a query without an error binds exactly the placeholders that its key
    condition and its filter use. -/
theorem plan_closed (table : String) (steps : List Step) (h : (build table steps).error? = none) :
    ∃ request, (build table steps).plan = .ok request ∧
      (∀ mark, (∃ text ∈ request.conditions, mark ∈ placeholdersIn '#' text.toList) ↔
        mark ∈ Dict.keys request.names) ∧
      ∀ mark, (∃ text ∈ request.conditions, mark ∈ placeholdersIn ':' text.toList) ↔
        mark ∈ Dict.keys request.values := by
  obtain ⟨request, hplan, hclosed⟩ := (sound_build table steps).exists_plan h
  exact ⟨request, hplan, hclosed.names, hclosed.values⟩

/-- Calls that make a query of an index, with a range and two filters that share names. -/
def albumSteps : List Step :=
  [.addFilter "plays > :p OR attribute_exists(meta.tags[0])" [.number (.int 10)],
    .hashFilter "album" (.string "Low"), .onIndex "by-album",
    .rangeFilter "no BETWEEN :a AND :b" [.number (.int 1), .number (.int 9)],
    .addFilter "contains(title, :t) AND NOT plays = :q" [.string "Be", .number (.int 12)],
    .descending, .limitTo 5]

/-- What the calls ask for, with names and conditions that are numbered in their order. -/
def albumQuery : Protocol.Query where
  table := "tracks"
  index := some "by-album"
  keyCondition := "#n3 = :hv AND #n4 BETWEEN :a AND :b"
  filter := some
    "(#n0 > :p OR attribute_exists(#n1.#n2[0])) AND (contains(#n5, :t) AND NOT #n0 = :q)"
  names := [("#n0", "plays"), ("#n1", "meta"), ("#n2", "tags"), ("#n3", "album"), ("#n4", "no"),
    ("#n5", "title")]
  values := [(":a", .number "1"), (":b", .number "9"), (":hv", .string "Low"),
    (":p", .number "10"), (":q", .number "12"), (":t", .string "Be")]
  limit := some 5

theorem plan_closed_albumSteps : (build "tracks" albumSteps).error? = none ∧
    (build "tracks" albumSteps).plan = .ok (.query albumQuery) ∧
      (∀ mark, (∃ text ∈ (PageRequest.query albumQuery).conditions,
        mark ∈ placeholdersIn '#' text.toList) ↔ mark ∈ Dict.keys albumQuery.names) ∧
      ∀ mark, (∃ text ∈ (PageRequest.query albumQuery).conditions,
        mark ∈ placeholdersIn ':' text.toList) ↔ mark ∈ Dict.keys albumQuery.values := by
  have hnone : (build "tracks" albumSteps).error? = none := by rfl
  have hquery : (build "tracks" albumSteps).plan = .ok (.query albumQuery) := by rfl
  obtain ⟨request, hplan, hclosed⟩ := plan_closed "tracks" albumSteps hnone
  obtain rfl := Except.ok.inj (hquery.symm.trans hplan)
  exact ⟨hnone, hquery, hclosed⟩

end Query

end TableClient
