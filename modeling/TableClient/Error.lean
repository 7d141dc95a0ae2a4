import TableClient.Condition.Error
import TableClient.Key.Cache
import TableClient.Protocol.Message

/-!
# Errors of the client

Everything that an operation of the client can fail with. Each error is a value that holds its
cause; its text is made of the cause in one place.

Results:
* `get?_record`: a recorded item error is seen at its own position and nowhere else.
-/

namespace TableClient

/-- Why a query cannot be built, or has no more items. -/
inductive QueryError where
  | emptyTableName
  | zeroLimit
  /-- The hash attribute has no name. -/
  | emptyHashName
  | hashAlreadySet
  | rangeAlreadySet
  /-- A condition on the range attribute that no key condition can hold. -/
  | rangeShape (condition : String)
  | noMoreItems
deriving DecidableEq

/-- The text of an error. -/
def QueryError.message : QueryError → String
  | .emptyTableName => "table name must not be empty"
  | .zeroLimit => "limit must be greater than zero"
  | .emptyHashName => "invalid hash filter: empty attribute name"
  | .hashAlreadySet => "invalid hash filter: hash filter already set"
  | .rangeAlreadySet => "invalid range filter: range filter already set"
  | .rangeShape condition => "invalid range filter: " ++ condition
  | .noMoreItems => "no more items to return"

/-- Why a stream cannot be followed, or a record not be taken. -/
inductive StreamError where
  | missingEventName
  | unknownEventName (name : String)
  /-- A record with neither image nor keys; holds its sequence number. -/
  | noImage (sequenceNumber : String)
  /-- The image of a record is no item of the type that was asked for. -/
  | undecodable (cause : CodecError)
  | notEnabled (table : String)
  | noMoreRecords
deriving DecidableEq

/-- The text of an error. -/
def StreamError.message : StreamError → String
  | .missingEventName => "invalid record: missing event name"
  | .unknownEventName name => "invalid record: unknown event name '" ++ name ++ "'"
  | .noImage sequenceNumber => "invalid record: record " ++ sequenceNumber ++ " carries no image"
  | .undecodable cause => "invalid record: " ++ cause.message
  | .notEnabled table => "table has no stream enabled: " ++ table
  | .noMoreRecords => "no more records to return"

/-! ## Errors of a batch -/

/-- Why a single item of a batch failed. -/
inductive ItemError where
  | invalidKey (cause : SchemaError)
  | codec (cause : CodecError)
  | notFound
  /-- The store left the item undone in this many requests. -/
  | unprocessed (attempts : Nat)
deriving DecidableEq

/-- The text of an error. -/
def ItemError.message : ItemError → String
  | .invalidKey cause => "invalid key: " ++ cause.message
  | .codec cause => "invalid item: " ++ cause.message
  | .notFound => "item not found"
  | .unprocessed attempts =>
    "item left unprocessed after " ++ toString attempts ++ " attempt(s)"

/-- The failed items of a batch, by table and by position in the items of the table. -/
structure BatchReport where
  tables : Dict (List (Nat × ItemError)) := []
deriving DecidableEq

namespace BatchReport

/-- Puts an error at a position, over any earlier one; positions stay in increasing order. -/
def insertAt (position : Nat) (error : ItemError) : List (Nat × ItemError) → List (Nat × ItemError)
  | [] => [(position, error)]
  | (p, e) :: rest =>
    if position < p then (position, error) :: (p, e) :: rest
    else if position = p then (position, error) :: rest
    else (p, e) :: insertAt position error rest

/-- Records the error of an item. -/
def record (report : BatchReport) (table : String) (position : Nat) (error : ItemError) :
    BatchReport :=
  ⟨Dict.insert report.tables table
    (insertAt position error ((Dict.get? report.tables table).getD []))⟩

/-- The error recorded for an item. -/
def get? (report : BatchReport) (table : String) (position : Nat) : Option ItemError :=
  ((Dict.get? report.tables table).getD []).lookup position

/-- Every error with its table and position, in order. -/
def toList (report : BatchReport) : List (String × Nat × ItemError) :=
  report.tables.flatMap fun entry => entry.2.map fun item => (entry.1, item)

/-- The number of failed items. -/
def size (report : BatchReport) : Nat := report.toList.length

theorem lookup_insertAt (position : Nat) (error : ItemError) (items : List (Nat × ItemError))
    (other : Nat) :
    (insertAt position error items).lookup other =
      if other = position then some error else items.lookup other := by
  induction items with
  | nil =>
    by_cases h : other = position
    · subst h; simp [insertAt]
    · have : (other == position) = false := by simpa using h
      simp [insertAt, List.lookup_cons, this, h]
  | cons item rest ih =>
    obtain ⟨p, e⟩ := item
    have cons : ∀ (a : Nat) (b : ItemError) (l : List (Nat × ItemError)),
        List.lookup other ((a, b) :: l) = if other = a then some b else l.lookup other := by
      intro a b l
      by_cases h : other = a
      · subst h; simp
      · have : (other == a) = false := by simpa using h
        simp [List.lookup_cons, this, h]
    simp only [insertAt]
    split
    · rw [cons]
    · split
      · rename_i h
        subst h
        rw [cons, cons]
        split <;> rfl
      · rename_i hne
        rw [cons, cons, ih]
        by_cases hp : other = p
        · subst hp; simp [Ne.symm hne]
        · simp [hp]

/-- A recorded item error is seen at its own position and nowhere else. -/
theorem get?_record (report : BatchReport) (table : String) (position : Nat) (error : ItemError)
    (otherTable : String) (otherPosition : Nat) :
    (report.record table position error).get? otherTable otherPosition =
      if otherTable = table ∧ otherPosition = position then some error
      else report.get? otherTable otherPosition := by
  simp only [get?, record, Dict.get?_insert]
  by_cases ht : otherTable = table
  · subst ht
    simp only [↓reduceIte, Option.getD_some, lookup_insertAt, true_and]
  · simp [ht]

end BatchReport

/-! ## All errors -/

/-- What a request was sent for. -/
inductive Activity where
  | putItem
  | getItem
  | deleteItem
  | query
  | scan
  | queryIndex
  | batchWrite
  | batchGet
  | describeTable
  | describeStream
  | getShardIterator
  | getRecords
deriving DecidableEq

/-- The words for an activity. -/
def Activity.name : Activity → String
  | .putItem => "put item"
  | .getItem => "get item"
  | .deleteItem => "delete item"
  | .query => "query"
  | .scan => "scan"
  | .queryIndex => "query index"
  | .batchWrite => "batch write"
  | .batchGet => "batch get"
  | .describeTable => "describe table"
  | .describeStream => "describe stream"
  | .getShardIterator => "get shard iterator"
  | .getRecords => "get records"

/-- What an operation of the client fails with. -/
inductive Error where
  | condition (cause : ConditionError)
  | query (cause : QueryError)
  | schema (cause : SchemaError)
  | codec (cause : CodecError)
  | stream (cause : StreamError)
  | batch (report : BatchReport)
  | transport (activity : Activity) (cause : TransportError)
  | noSuchItem
  /-- A table was registered twice for one batch. -/
  | duplicateTable (table : String)
deriving DecidableEq

/-- The text of an error. -/
def Error.message : Error → String
  | .condition cause => cause.message
  | .query cause => cause.message
  | .schema cause => cause.message
  | .codec cause => cause.message
  | .stream cause => cause.message
  | .batch report => "an error occurred in " ++ toString report.size ++ " batch item(s)"
  | .transport activity cause => activity.name ++ " failed: " ++ cause.message
  | .noSuchItem => "no such item"
  | .duplicateTable table =>
    "only one batch registration per table is allowed: " ++ table

end TableClient
