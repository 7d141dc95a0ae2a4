import TableClient.Client

/-!
# Printing a stream

The records of the latest stream of a table as lines of JSON, either those that are there or, when
it is to be followed, all that come until the stream ends.
-/

namespace TableClient.Tail

/-- What is to be printed. -/
structure Options where
  /-- The path of the socket of the store, if it is not the usual one. -/
  socket? : Option String
  table : String
  /-- Whether to wait for further records. -/
  follow : Bool
deriving DecidableEq

/-- Why arguments are refused. -/
inductive UsageError where
  | unknownArgument (argument : String)
  | missingTable
deriving DecidableEq

/-- The name of the store that is read: the program is named after it, and so is the directory of
    its socket. -/
def storeName : String := "ferridyn"

/-- How the program is called. -/
def usage : String := "usage: " ++ storeName ++ "-tail --table NAME [--socket PATH] [--follow]"

/-- What is shown for refused arguments. An argument is shown as it stands, line breaks included. -/
def UsageError.message : UsageError → String
  | .unknownArgument argument => "unknown argument: " ++ argument ++ "\n" ++ usage
  | .missingTable => usage

/-- Reads the rest of the arguments, behind those that gave the settings so far. An option that
    needs a value and is the last argument is unknown. -/
def readFrom (socket? table? : Option String) (follow : Bool) :
    List String → Except UsageError Options
  | [] =>
    match table? with
    | some table => .ok ⟨socket?, table, follow⟩
    | none => .error .missingTable
  | "--socket" :: path :: rest => readFrom (some path) table? follow rest
  | "--table" :: name :: rest => readFrom socket? (some name) follow rest
  | "--follow" :: rest => readFrom socket? table? true rest
  | argument :: _ => .error (.unknownArgument argument)

/-- Reads the arguments. -/
def readOptions (arguments : List String) : Except UsageError Options :=
  readFrom none none false arguments

/-- The line for a record. -/
def line (record : Record) : Except Error String := do
  let item ← (AttributeMap.toDocument record.image).mapError .codec
  return (Json.ofFields [("type", toJson record.kind), ("item", item)]).compact

/-- Where the printing stands: before the stream is known, or while it is read. -/
inductive Stage where
  | opening
  | polling (state : Feed.Polling)

/-- The printing of a stream; `lines` are those that are ready and not printed yet. -/
structure Printing where
  stage : Stage := .opening
  lines : List String := []

/-- How the printing ended, and the lines that are left to print. -/
structure Result where
  outcome : Except Error Unit
  lines : List String

/-- Prints the records at hand. Stops at the first that cannot be printed. -/
def printAll (feed : Feed) (lines : List String) :
    List Protocol.RawRecord → Except Error Unit × List String
  | [] => (.ok (), lines)
  | raw :: rest =>
    match ((Record.ofRaw feed.keysOnly raw).mapError .stream).bind line with
    | .ok text => printAll feed (lines ++ [text]) rest
    | .error error => (.error error, lines)

/-- What follows a look for records: all records at hand are printed before the next look. -/
def afterLook (follow : Bool) (lines : List String) : Feed.Found → Next Printing Result
  | (.error error, _) => .done ⟨.error error, lines⟩
  | (.ok false, _) => .done ⟨.ok (), lines⟩
  | (.ok true, feed) =>
    match printAll feed lines feed.buffer with
    | (.error error, lines) => .done ⟨.error error, lines⟩
    | (.ok (), lines) =>
      match Feed.look { feed with buffer := [] } follow with
      | .again state | .after _ state => .again ⟨.polling state, lines⟩
      | .done _ => .done ⟨.ok (), lines⟩

/-- Prints the records of a stream. -/
def run (client : Client) (options : Options) : Conversation Printing Result :=
  fun ⟨stage, lines⟩ =>
    match stage with
    | .opening =>
      (client.stream options.table).map fun
        | .error error => .done ⟨.error error, lines⟩
        | .ok feed =>
          match feed.look options.follow with
          | .again state | .after _ state => .again ⟨.polling state, lines⟩
          | .done _ => .done ⟨.ok (), lines⟩
    | .polling state =>
      (Feed.poll state).map fun
        | .again state => .again ⟨.polling state, lines⟩
        | .after milliseconds state => .after milliseconds ⟨.polling state, lines⟩
        | .done found => afterLook options.follow lines found

end TableClient.Tail
