import TableClient.Json.Printer
import TableClient.Json.Reader
import TableClient.Protocol.Batch
import TableClient.Protocol.Item
import TableClient.Protocol.Page
import TableClient.Protocol.Stream
import TableClient.Text.Blank

/-!
# Messages

A request is one line, the object of its input behind the name of the operation under `op`. A reply
is one line as well: the object of the answer, or an object with a field `error`.
-/

namespace TableClient

open Protocol

/-- A request to the store. -/
inductive Request where
  | getItem (input : GetItem)
  | putItem (input : PutItem)
  | deleteItem (input : DeleteItem)
  | query (input : Query)
  | scan (input : Scan)
  | batchGet (input : BatchGet)
  | batchWrite (input : BatchWrite)
  | describeStream (input : DescribeStream)
  | getShardIterator (input : GetShardIterator)
  | getRecords (input : GetRecords)
  | describeTable (table : String)
deriving DecidableEq

namespace Request

/-- The name of the operation. -/
def operation : Request → String
  | .getItem _ => "get_item"
  | .putItem _ => "put_item"
  | .deleteItem _ => "delete_item"
  | .query _ => "query"
  | .scan _ => "scan"
  | .batchGet _ => "batch_get_item"
  | .batchWrite _ => "batch_write_item"
  | .describeStream _ => "describe_stream"
  | .getShardIterator _ => "get_shard_iterator"
  | .getRecords _ => "get_records"
  | .describeTable _ => "describe_table"

/-- The object of the input. -/
def input : Request → Json
  | .getItem input => toJson input
  | .putItem input => toJson input
  | .deleteItem input => toJson input
  | .query input => toJson input
  | .scan input => toJson input
  | .batchGet input => toJson input
  | .batchWrite input => toJson input
  | .describeStream input => toJson input
  | .getShardIterator input => toJson input
  | .getRecords input => toJson input
  | .describeTable table => .object [("table", .string table)]

/-- The value that is sent. -/
def message (request : Request) : Json :=
  match request.input with
  | .object fields => .object (("op", .string request.operation) :: fields)
  | json => json

/-- The line that is sent. -/
def line (request : Request) : String := request.message.compact

end Request

/-- A failure of a call to the store. -/
inductive TransportError where
  /-- The connection failed. -/
  | io (reason : String)
  /-- A line is no JSON text, or its value is not what was asked for. -/
  | serialization
  /-- There was no reply. -/
  | disconnected
  /-- A reply that is no object; holds its text. -/
  | notAnObject (json : String)
  /-- The table, stream or shard does not exist. -/
  | resourceNotFound (message : String)
  /-- The iterator is too old. -/
  | expiredIterator (message : String)
  /-- Any other error that the store reports. -/
  | service (code message : String)
deriving DecidableEq

/-- The text of an error. -/
def TransportError.message : TransportError → String
  | .io reason => "I/O error: " ++ reason
  | .serialization => "serialization error"
  | .disconnected => "server disconnected"
  | .notAnObject json => "protocol error: expected a JSON object, got: " ++ json
  | .resourceNotFound message => "resource not found: " ++ message
  | .expiredIterator message => "shard iterator expired: " ++ message
  | .service code message => "service error: " ++ code ++ ": " ++ message

namespace Protocol

/-- The error that a store reports. -/
structure ErrorReply where
  error : String
  message : String
deriving DecidableEq

abbrev ErrorReply.form : RecordForm ErrorReply :=
  .madeOf (fun reply => (reply.error, reply.message)) (fun (error, message) => { error, message })
    (.and (.required "error") <| .withDefault "message" "")

instance : JsonForm ErrorReply := ErrorReply.form.jsonForm

/-- The failure that a reported error stands for. -/
def ErrorReply.toError (reply : ErrorReply) : TransportError :=
  if reply.error = "ResourceNotFoundException" then .resourceNotFound reply.message
  else if reply.error = "ExpiredIteratorException" then .expiredIterator reply.message
  else .service reply.error reply.message

end Protocol

/-- The outcome of a request: the object of the answer, or a failure. -/
abbrev Reply := Except TransportError Json

/-- The reply that a value is. -/
def replyOf (json : Json) : Reply :=
  match json with
  | .object fields =>
    if Dict.contains fields "error" then
      match (ofJson? json : Option ErrorReply) with
      | some reply => .error reply.toError
      | none => .error .serialization
    else .ok json
  | json => .error (.notAnObject json.compact)

/-- The reply that a line is, if one came; blanks around it do not count. -/
def readReply : Option String → Reply
  | none => .error .disconnected
  | some line =>
    match Json.ofText? (Text.trim line.toList) with
    | some json => replyOf json
    | none => .error .serialization

/-- The answer in a reply, as a value of the type that was asked for. -/
def Reply.as (α : Type) [JsonForm α] (reply : Reply) : Except TransportError α :=
  match reply with
  | .error error => .error error
  | .ok json =>
    match ofJson? json with
    | some value => .ok value
    | none => .error .serialization

end TableClient
