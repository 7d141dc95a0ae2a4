import TableClient.Condition.Compiled
import TableClient.Conversation

/-!
# Building queries

A query is built up by calls one after another. The first call that cannot be carried out leaves
its error, which stays; conditions and limits that come later are not looked at. A query that
selects a hash value becomes a key condition, any other a scan of the table or index.

Results:
* `attempt_of_error`: behind an error no step is carried out, so the error stays.
-/

namespace TableClient

open Condition (Compiled Namespace Shape)

/-- A query that is being built. -/
structure Query where
  table : String
  index : Option String := none
  names : Namespace := {}
  hash : Option Compiled := none
  range : Option Compiled := none
  filter : Option Compiled := none
  forward : Bool := true
  consistent : Bool := false
  limit : Option UInt64 := none
  error? : Option Error := none
deriving DecidableEq

/-- What a query asks the store for, page by page. -/
inductive PageRequest where
  | query (input : Protocol.Query)
  | scan (input : Protocol.Scan)
deriving DecidableEq

namespace Query

/-- A query on a table without any condition. -/
def onTable (table : String) : Query :=
  { table, error? := if table.isEmpty then some (.query .emptyTableName) else none }

/-- Carries a step out unless there is an error; a step that fails leaves its error. -/
def attempt (query : Query) (step : Except Error Query) : Query :=
  if query.error?.isSome then query
  else
    match step with
    | .ok next => next
    | .error error => { query with error? := some error }

/-- Compiles a condition in the namespace of the query. -/
def compile (query : Query) (condition : String) (values : List Json) :
    Except Error (Compiled × Namespace) :=
  (Condition.compile query.names condition values).mapError .condition

/-- Asks for a secondary index. -/
def onIndex (query : Query) (name : String) : Query :=
  query.attempt (.ok { query with index := some name })

/-- Selects the items whose hash attribute has a value. -/
def hashFilter (query : Query) (name : String) (value : Json) : Query :=
  query.attempt <|
    if name.isEmpty then .error (.query .emptyHashName)
    else if query.hash.isSome then .error (.query .hashAlreadySet)
    else do
      let (compiled, names) ← query.compile (name ++ " = :hv") [value]
      return { query with names, hash := some compiled }

/-- Whether a condition of one term of this shape can restrict a range attribute. -/
def isRangeShape : Shape → Bool
  | .comparison | .between | .call .beginsWith => true
  | _ => false

/-- Restricts the range attribute by one comparison, `BETWEEN` or `begins_with`. -/
def rangeFilter (query : Query) (condition : String) (values : List Json) : Query :=
  query.attempt <|
    if query.range.isSome then .error (.query .rangeAlreadySet)
    else do
      let (compiled, names) ← query.compile condition values
      if compiled.onlyShape?.any isRangeShape then
        return { query with names, range := some compiled }
      else .error (.query (.rangeShape condition))

/-- Adds a condition on the items that are found; several are joined by `AND`. -/
def addFilter (query : Query) (condition : String) (values : List Json) : Query :=
  query.attempt do
    let (compiled, names) ← query.compile condition values
    match query.filter with
    | none => return { query with names, filter := some compiled }
    | some filter =>
      let joined ← (Compiled.join .and filter compiled).mapError .condition
      return { query with names, filter := some joined }

/-- Asks for descending order of the range attribute. -/
def descending (query : Query) : Query := { query with forward := false }

/-- Asks for a strongly consistent read. -/
def consistently (query : Query) : Query := { query with consistent := true }

/-- Limits the number of items over all pages. -/
def limitTo (query : Query) (limit : UInt64) : Query :=
  query.attempt <|
    if limit = 0 then .error (.query .zeroLimit) else .ok { query with limit := some limit }

/-! ## Planning -/

/-- The names of two conditions, either of which may be missing. -/
def mergedNames (first second : Option Compiled) : Dict String :=
  Dict.insertAll ((first.map Compiled.names).getD []) ((second.map Compiled.names).getD [])

/-- The values of two conditions, either of which may be missing. -/
def mergedValues (first second : Option Compiled) : Dict Attribute :=
  Dict.insertAll ((first.map Compiled.values).getD []) ((second.map Compiled.values).getD [])

/-- Joins two conditions, either of which may be missing, by `AND`. -/
def both (first second : Option Compiled) : Except Error (Option Compiled) :=
  match first, second with
  | some first, some second => do
    let joined ← (Compiled.join .and first second).mapError .condition
    return some joined
  | some first, none => .ok (some first)
  | none, second => .ok second

/-- What the query asks the store for. -/
def plan (query : Query) : Except Error PageRequest :=
  match query.error?, query.hash with
  | some error, _ => .error error
  | none, some hash => do
    let key := (← both (some hash) query.range).getD hash
    return .query {
      table := query.table
      index := query.index
      keyCondition := key.text
      filter := query.filter.map Compiled.text
      names := mergedNames (some key) query.filter
      values := mergedValues (some key) query.filter
      limit := query.limit
      forward := query.forward
      consistentRead := query.consistent }
  | none, none => do
    let filter ← both query.filter query.range
    return .scan {
      table := query.table
      index := query.index
      filter := filter.map Compiled.text
      names := mergedNames filter none
      values := mergedValues filter none
      limit := query.limit
      consistentRead := query.consistent }

/-! ## Lemmas -/

/-- Behind an error no step is carried out. -/
theorem attempt_of_error {query : Query} {error : Error} (h : query.error? = some error)
    (step : Except Error Query) : query.attempt step = query := by
  simp [attempt, h]

end Query

end TableClient
