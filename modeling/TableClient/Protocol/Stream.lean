import TableClient.Attribute.Form
import TableClient.Json.Record

/-!
# Stream calls

The inputs and replies of the calls that follow the changes of a table: the description of a
stream and of its shards, iterators into a shard, and records.
-/

namespace TableClient.Protocol

/-- Whether a stream takes new records. -/
inductive StreamStatus where
  | enabling
  | enabled
  | disabling
  | disabled
deriving DecidableEq

/-- The name of a status on the wire. -/
def StreamStatus.name : StreamStatus → String
  | .enabling => "ENABLING"
  | .enabled => "ENABLED"
  | .disabling => "DISABLING"
  | .disabled => "DISABLED"

instance : JsonForm StreamStatus where
  toJson status := .string status.name
  readFrom? _ := readAlternative? [.enabling, .enabled, .disabling, .disabled] StreamStatus.name

/-- What the records of a stream show of an item. -/
inductive StreamView where
  | keysOnly
  | newImage
  | oldImage
  | newAndOldImages
deriving DecidableEq

/-- The name of a view on the wire. -/
def StreamView.name : StreamView → String
  | .keysOnly => "KEYS_ONLY"
  | .newImage => "NEW_IMAGE"
  | .oldImage => "OLD_IMAGE"
  | .newAndOldImages => "NEW_AND_OLD_IMAGES"

instance : JsonForm StreamView where
  toJson view := .string view.name
  readFrom? _ := readAlternative? [.keysOnly, .newImage, .oldImage, .newAndOldImages] StreamView.name

/-- Asks for a page of the description of a stream. -/
structure DescribeStream where
  streamArn : String := ""
  startShardId : Option String := none
deriving DecidableEq

abbrev DescribeStream.form : RecordForm DescribeStream :=
  .madeOf (fun input => (input.streamArn, input.startShardId))
    (fun (streamArn, startShardId) => { streamArn, startShardId })
    (.and (.withDefault "stream_arn" "") <| .leftOut "exclusive_start_shard_id")

instance : JsonForm DescribeStream := DescribeStream.form.jsonForm

/-- A shard as the store describes it. -/
structure ShardDescription where
  shardId : String := ""
  parentShardId : Option String := none
  startingSequenceNumber : String := ""
  endingSequenceNumber : Option String := none
deriving DecidableEq

abbrev ShardDescription.form : RecordForm ShardDescription :=
  .madeOf
    (fun shard => (shard.shardId, shard.parentShardId, shard.startingSequenceNumber,
      shard.endingSequenceNumber))
    (fun (shardId, parentShardId, startingSequenceNumber, endingSequenceNumber) =>
      { shardId, parentShardId, startingSequenceNumber, endingSequenceNumber })
    (.and (.withDefault "shard_id" "") <| .and (.withDefault "parent_shard_id" none) <|
      .and (.withDefault "starting_sequence_number" "") <|
      .withDefault "ending_sequence_number" none)

instance : JsonForm ShardDescription := ShardDescription.form.jsonForm

/-- A page of the description of a stream, and the shard to go on from if there are more. -/
structure StreamDescription where
  streamArn : String := ""
  status : StreamStatus := .enabled
  view : StreamView := .newAndOldImages
  shards : List ShardDescription := []
  lastShardId : Option String := none
deriving DecidableEq

abbrev StreamDescription.form : RecordForm StreamDescription :=
  .madeOf
    (fun description => (description.streamArn, description.status, description.view,
      description.shards, description.lastShardId))
    (fun (streamArn, status, view, shards, lastShardId) =>
      { streamArn, status, view, shards, lastShardId })
    (.and (.withDefault "stream_arn" "") <| .and (.withDefault "stream_status" .enabled) <|
      .and (.withDefault "stream_view_type" .newAndOldImages) <| .and (.withDefault "shards" []) <|
      .withDefault "last_evaluated_shard_id" none)

instance : JsonForm StreamDescription := StreamDescription.form.jsonForm

/-- Where an iterator starts in a shard. -/
inductive IteratorStart where
  /-- At the oldest record. -/
  | trimHorizon
  /-- Behind the newest record. -/
  | latest
  /-- At a record. -/
  | atSequenceNumber
  /-- Behind a record. -/
  | afterSequenceNumber
deriving DecidableEq

/-- The name of a start on the wire. -/
def IteratorStart.name : IteratorStart → String
  | .trimHorizon => "TRIM_HORIZON"
  | .latest => "LATEST"
  | .atSequenceNumber => "AT_SEQUENCE_NUMBER"
  | .afterSequenceNumber => "AFTER_SEQUENCE_NUMBER"

instance : JsonForm IteratorStart where
  toJson start := .string start.name
  readFrom? _ := readAlternative?
    [.trimHorizon, .latest, .atSequenceNumber, .afterSequenceNumber] IteratorStart.name

/-- Asks for an iterator into a shard. -/
structure GetShardIterator where
  streamArn : String
  shardId : String
  start : IteratorStart
  sequenceNumber : Option String
deriving DecidableEq

abbrev GetShardIterator.form : RecordForm GetShardIterator :=
  .madeOf (fun input => (input.streamArn, input.shardId, input.start, input.sequenceNumber))
    (fun (streamArn, shardId, start, sequenceNumber) =>
      { streamArn, shardId, start, sequenceNumber })
    (.and (.required "stream_arn") <| .and (.required "shard_id") <|
      .and (.required "shard_iterator_type") <| .leftOut "sequence_number")

instance : JsonForm GetShardIterator := GetShardIterator.form.jsonForm

/-- The iterator, if the shard can be read. -/
structure GetShardIteratorReply where
  iterator : Option String := none
deriving DecidableEq

abbrev GetShardIteratorReply.form : RecordForm GetShardIteratorReply :=
  .madeOf GetShardIteratorReply.iterator GetShardIteratorReply.mk
    (.withDefault "shard_iterator" none)

instance : JsonForm GetShardIteratorReply := GetShardIteratorReply.form.jsonForm

/-- Asks for the records at an iterator. -/
structure GetRecords where
  iterator : String := ""
  limit : Option UInt64 := none
deriving DecidableEq

abbrev GetRecords.form : RecordForm GetRecords :=
  .madeOf (fun input => (input.iterator, input.limit)) (fun (iterator, limit) => { iterator, limit })
    (.and (.withDefault "shard_iterator" "") <| .leftOut "limit")

instance : JsonForm GetRecords := GetRecords.form.jsonForm

/-- A change as the store delivers it. -/
structure RawRecord where
  eventName : Option String := none
  sequenceNumber : String := ""
  keys : AttributeMap := []
  newImage : Option AttributeMap := none
  oldImage : Option AttributeMap := none
deriving DecidableEq

abbrev RawRecord.form : RecordForm RawRecord :=
  .madeOf
    (fun record => (record.eventName, record.sequenceNumber, record.keys, record.newImage,
      record.oldImage))
    (fun (eventName, sequenceNumber, keys, newImage, oldImage) =>
      { eventName, sequenceNumber, keys, newImage, oldImage })
    (.and (.withDefault "event_name" none) <| .and (.withDefault "sequence_number" "") <|
      .and (.withDefault "keys" []) <| .and (.withDefault "new_image" none) <|
      .withDefault "old_image" none)

instance : JsonForm RawRecord := RawRecord.form.jsonForm

/-- Records, and the iterator behind them unless the shard is closed and read to its end. -/
structure GetRecordsReply where
  records : List RawRecord := []
  next : Option String := none
deriving DecidableEq

abbrev GetRecordsReply.form : RecordForm GetRecordsReply :=
  .madeOf (fun reply => (reply.records, reply.next)) (fun (records, next) => { records, next })
    (.and (.withDefault "records" []) <| .withDefault "next_shard_iterator" none)

instance : JsonForm GetRecordsReply := GetRecordsReply.form.jsonForm

/-- What is known of a table and its stream. -/
structure TableDescription where
  tableName : String := ""
  streamEnabled : Bool := false
  latestStreamArn : Option String := none
deriving DecidableEq

abbrev TableDescription.form : RecordForm TableDescription :=
  .madeOf
    (fun description => (description.tableName, description.streamEnabled,
      description.latestStreamArn))
    (fun (tableName, streamEnabled, latestStreamArn) =>
      { tableName, streamEnabled, latestStreamArn })
    (.and (.withDefault "table_name" "") <| .and (.withDefault "stream_enabled" false) <|
      .withDefault "latest_stream_arn" none)

instance : JsonForm TableDescription := TableDescription.form.jsonForm

end TableClient.Protocol
