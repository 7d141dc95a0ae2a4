import TableClient.Config
import TableClient.Conversation
import TableClient.Stream.Record

/-!
# Following a stream

A feed reads the shards of a stream in the order of their starts and buffers the records. A poll
goes over the pages of the description of the stream; the shards of a page that have not been read
to their end are read from behind the last record seen, if it lies in the shard, else from the
start. A poll ends with the page that gave records, or with the last page.

A poll is a conversation: its phase says which reply it waits for.
-/

namespace TableClient

open Protocol (RawRecord)

/-- What is known of a stream that is followed. -/
structure Feed where
  streamArn : String
  /-- The milliseconds between two polls while waiting. -/
  pollInterval : Nat
  /-- Expired iterators that are replaced while a shard is read. -/
  maxRefreshes : Nat
  /-- Records that were accepted and not taken yet. -/
  buffer : List RawRecord := []
  /-- The shards that were described. -/
  described : List String := []
  /-- The shards that were read to their end. -/
  processed : List String := []
  /-- Where the description goes on. -/
  lastShardId : Option String := none
  /-- The last record accepted. -/
  lastSeen : Option SequenceNumber := none
  /-- Whether the records show keys only. -/
  keysOnly : Bool := false
  /-- Whether the stream takes no more records. -/
  disabled : Bool := false
  /-- Whether the stream or one of its shards is gone. -/
  closed : Bool := false
deriving DecidableEq

/-- The shard that is being read, and what comes behind it. -/
structure ShardReading where
  shard : Shard
  /-- The expired iterators that were replaced so far. -/
  refreshes : Nat := 0
  /-- The shards of the page behind this one. -/
  rest : List Shard
  /-- Whether there are more pages. -/
  more : Bool
deriving DecidableEq

/-- The reply that a poll waits for. -/
inductive Phase where
  /-- A page of the description of the stream. -/
  | describing
  /-- An iterator behind a position. -/
  | resuming (reading : ShardReading) (position : SequenceNumber)
  /-- An iterator at the start of the shard. -/
  | rewinding (reading : ShardReading)
  /-- Records at an iterator. -/
  | reading (reading : ShardReading) (iterator : String)
deriving DecidableEq

/-- How far a poll has come. -/
inductive Progress where
  | waiting (phase : Phase)
  | finished
  | failed (error : Error)
deriving DecidableEq

namespace Feed

/-- A feed of a stream from its beginning. A stream without name is closed from the start. -/
def ofArn (config : Config) (streamArn : String) : Feed where
  streamArn
  pollInterval := config.pollInterval.toNat
  maxRefreshes := config.maxIteratorRefreshes.toNat
  closed := streamArn.isEmpty

/-- Adds names that are not there yet. -/
def mark (there : List String) (name : String) : List String :=
  if there.contains name then there else there ++ [name]

/-- Whether every shard described so far was read to its end. -/
def isDrained (feed : Feed) : Bool := feed.described.all feed.processed.contains

/-- Closes the feed for good. -/
def close (feed : Feed) : Feed := { feed with closed := true }

/-- Takes a shard as read to its end. -/
def markProcessed (feed : Feed) (shard : Shard) : Feed :=
  { feed with processed := mark feed.processed shard.id }

/-! ## Steps of a poll -/

/-- Starts on a shard: behind the last record seen if it lies in the shard, else at the start. -/
def openShard (feed : Feed) (reading : ShardReading) : Progress :=
  match feed.lastSeen.filter reading.shard.contains with
  | some position => .waiting (.resuming reading position)
  | none => .waiting (.rewinding reading)

/-- Goes on with the next shard of a page, or else with the next page unless there is none or the
    buffer holds records. -/
def nextShard (feed : Feed) (rest : List Shard) (more : Bool) : Progress :=
  match rest with
  | shard :: rest => feed.openShard { shard, rest, more }
  | [] => if more && feed.buffer.isEmpty then .waiting .describing else .finished

/-- Goes on behind a shard. -/
def leaveShard (feed : Feed) (reading : ShardReading) : Feed × Progress :=
  (feed, feed.nextShard reading.rest reading.more)

/-- The shards of a page that have not been read to their end, in the order of their starts. -/
def shardsOf (feed : Feed) (description : Protocol.StreamDescription) : List Shard :=
  let unread := description.shards.filter fun shard => !feed.processed.contains shard.shardId
  (unread.map Shard.ofDescription).mergeSort fun a b => a.start.le b.start

/-- Takes note of a page of the description. -/
def learn (feed : Feed) (description : Protocol.StreamDescription) : Feed :=
  { feed with
    lastShardId := description.lastShardId <|> feed.lastShardId
    disabled := description.status = .disabled
    keysOnly := description.view = .keysOnly
    described := (description.shards.map Protocol.ShardDescription.shardId).foldl mark
      feed.described }

/-- Buffers a record of a shard, unless the last record seen lies in the shard and this one is not
    behind it. -/
def accept (feed : Feed) (shard : Shard) (record : RawRecord) : Feed :=
  let position : SequenceNumber := ⟨record.sequenceNumber⟩
  if feed.lastSeen.any fun last => shard.contains last && position.le last then feed
  else { feed with lastSeen := some position, buffer := feed.buffer ++ [record] }

/-- Takes a page of the description. -/
def receiveDescription (feed : Feed) :
    Except TransportError Protocol.StreamDescription → Feed × Progress
  | .ok description =>
    let feed := feed.learn description
    (feed, feed.nextShard (feed.shardsOf description) description.lastShardId.isSome)
  | .error (.resourceNotFound _) => (feed.close, .finished)
  | .error error => (feed, .failed (.transport .describeStream error))

/-- Takes the iterator behind a position. Without one the shard is read from its start. -/
def receiveResumed (feed : Feed) (reading : ShardReading) :
    Except TransportError Protocol.GetShardIteratorReply → Feed × Progress
  | .ok ⟨some iterator⟩ => (feed, .waiting (.reading reading iterator))
  | _ => (feed, .waiting (.rewinding reading))

/-- Takes the iterator at the start of a shard. A shard that has none to begin with has no
    records. -/
def receiveRewound (feed : Feed) (reading : ShardReading) :
    Except TransportError Protocol.GetShardIteratorReply → Feed × Progress
  | .ok ⟨some iterator⟩ => (feed, .waiting (.reading reading iterator))
  | .ok ⟨none⟩ =>
    leaveShard (if reading.refreshes = 0 then feed.markProcessed reading.shard else feed) reading
  | .error (.resourceNotFound _) => (feed.close, .finished)
  | .error error => (feed, .failed (.transport .getShardIterator error))

/-- Takes records of a shard. Without a next iterator the shard is read to its end; without records
    it has no more for now. An expired iterator is replaced a limited number of times. -/
def receiveRecords (feed : Feed) (reading : ShardReading) :
    Except TransportError Protocol.GetRecordsReply → Feed × Progress
  | .ok reply =>
    let feed := reply.records.foldl (fun feed record => feed.accept reading.shard record) feed
    match reply.next with
    | none => leaveShard (feed.markProcessed reading.shard) reading
    | some iterator =>
      if reply.records.isEmpty then feed.leaveShard reading
      else (feed, .waiting (.reading reading iterator))
  | .error (.expiredIterator message) =>
    if reading.refreshes < feed.maxRefreshes then
      (feed, feed.openShard { reading with refreshes := reading.refreshes + 1 })
    else (feed, .failed (.transport .getRecords (.expiredIterator message)))
  | .error (.resourceNotFound _) => (feed.close, .finished)
  | .error error => (feed, .failed (.transport .getRecords error))

/-- The request whose reply a phase waits for. -/
def request (feed : Feed) : Phase → Request
  | .describing => .describeStream ⟨feed.streamArn, feed.lastShardId⟩
  | .resuming reading position =>
    .getShardIterator ⟨feed.streamArn, reading.shard.id, .afterSequenceNumber, some position.text⟩
  | .rewinding reading =>
    .getShardIterator ⟨feed.streamArn, reading.shard.id, .trimHorizon, none⟩
  | .reading _ iterator => .getRecords { iterator }

/-- Takes the reply that a phase waits for. -/
def receive (feed : Feed) (phase : Phase) (reply : Reply) : Feed × Progress :=
  match phase with
  | .describing => feed.receiveDescription (reply.as Protocol.StreamDescription)
  | .resuming reading _ => feed.receiveResumed reading (reply.as Protocol.GetShardIteratorReply)
  | .rewinding reading => feed.receiveRewound reading (reply.as Protocol.GetShardIteratorReply)
  | .reading reading _ => feed.receiveRecords reading (reply.as Protocol.GetRecordsReply)

/-! ## Looking for records -/

/-- A poll that is under way. -/
structure Polling where
  feed : Feed
  phase : Phase
  /-- Whether to poll again until there is a record. -/
  waits : Bool
deriving DecidableEq

/-- What a look for records gives: whether there are some, or an error. -/
abbrev Found := Except Error Bool × Feed

/-- Begins to look for records: at once if there are some or the feed is closed. -/
def look (feed : Feed) (waits : Bool) : Next Polling Found :=
  if !feed.buffer.isEmpty then .done (.ok true, feed)
  else if feed.closed then .done (.ok false, feed)
  else .again ⟨feed, .describing, waits⟩

/-- What follows a poll that has ended. A feed that waits polls again, unless it is closed, or the
    stream is disabled and every shard was read to its end. -/
def afterPoll (feed : Feed) (waits : Bool) : Next Polling Found :=
  if !feed.buffer.isEmpty then .done (.ok true, feed)
  else if !waits || feed.closed || (feed.disabled && feed.isDrained) then .done (.ok false, feed)
  else .after feed.pollInterval ⟨feed, .describing, waits⟩

/-- Polls a stream, once or until there is a record. -/
def poll : Conversation Polling Found :=
  fun ⟨feed, phase, waits⟩ =>
    .ask (feed.request phase) fun reply =>
      match feed.receive phase reply with
      | (feed, .waiting phase) => .again ⟨feed, phase, waits⟩
      | (feed, .finished) => feed.afterPoll waits
      | (feed, .failed error) => .done (.error error, feed)

/-- Takes the first record of the buffer. -/
def take (feed : Feed) : Except Error Record × Feed :=
  match feed.buffer with
  | [] => (.error (.stream .noMoreRecords), feed)
  | raw :: buffer =>
    ((Record.ofRaw feed.keysOnly raw).mapError .stream, { feed with buffer })

/-- Takes the first record of the buffer with its image as an item of a type. -/
def takeAs (feed : Feed) (type : ItemType) : Except Error (ChangeKind × Json) × Feed :=
  let (outcome, feed) := feed.take
  (outcome.bind fun record =>
    match type.decode record.image with
    | .ok document => .ok (record.kind, document)
    | .error error => .error (.stream (.undecodable error)), feed)

end Feed

end TableClient
