import Mathlib
import TableClient.Proofs.Stream.Session

/-!
# Looks that are replayed

A look is replayed against exchanges that are given one after the other. It runs like that against
every store that serves these exchanges.

Results:
* `run_of_replay`: a look that is replayed runs.
* `Session.Reaches.replay`: a look that is replayed is part of a session.
* `earlierShard`, `laterShard`: shards to replay looks on.
-/

namespace TableClient

namespace Feed

open Protocol (RawRecord)

/-- What a look finds from some step on when it sends just the requests of these exchanges and gets
    their replies. -/
def replay : Next Polling Found → List (Request × Reply) → Option Found
  | .done found, [] => some found
  | _, [] => none
  | next, (request, reply) :: exchanges =>
    match next.state? with
    | some ⟨feed, phase, waits⟩ =>
      if feed.request phase = request then
        replay (follow waits (feed.receive phase reply)) exchanges
      else none
    | none => none

variable {serve : StreamLog → Request → Reply → Prop} {grow : StreamLog → StreamLog → Prop}
  {log : StreamLog} {feed feed' : Feed} {phase : Phase} {waits : Bool} {state : Polling}
  {taken : List RawRecord}

/-- A store serves exchanges one after the other. -/
def Serves {S : Type} (serve : S → Request → Reply → S → Prop) :
    S → List (Request × Reply) → S → Prop
  | store, [], store' => store' = store
  | store, (request, reply) :: exchanges, store' =>
    ∃ between, serve store request reply between ∧ Serves serve between exchanges store'

theorem serves_still {exchanges : List (Request × Reply)}
    (h : ∀ exchange ∈ exchanges, serve log exchange.1 exchange.2) :
    Serves (Still serve) log exchanges log := by
  induction exchanges with
  | nil => rfl
  | cons exchange exchanges ih =>
    obtain ⟨hfirst, hrest⟩ := List.forall_mem_cons.mp h
    exact ⟨log, ⟨rfl, hfirst⟩, ih hrest⟩

/-- A request whose reply the store gives is a turn of a look. -/
theorem turn_of_serve {S : Type} {serve : S → Request → Reply → S → Prop} {store store' : S}
    (waits : Bool) {reply : Reply} (h : serve store (feed.request phase) reply store') :
    Turn serve poll ⟨feed, phase, waits⟩ store [feed.request phase]
      (follow waits (feed.receive phase reply)) store' :=
  @Turn.answered _ _ _ serve poll ⟨feed, phase, waits⟩ store _
    (fun reply => follow waits (feed.receive phase reply)) reply store' rfl h

/-- A request whose reply the store gives is a step of a session. -/
theorem Session.Step.of_serve {reply : Reply} {next : Next Polling Found}
    (h : serve log (feed.request phase) reply)
    (hnext : follow waits (feed.receive phase reply) = next) :
    Session.Step serve grow (⟨.polling ⟨feed, phase, waits⟩, taken⟩, log)
      (⟨.ofNext next, taken⟩, log) :=
  hnext ▸ .turn (turn_of_serve waits ⟨rfl, h⟩)

theorem replay_done {exchanges : List (Request × Reply)} {found found' : Found}
    (h : replay (.done found) exchanges = some found') : exchanges = [] ∧ found = found' := by
  cases exchanges with
  | nil => exact ⟨rfl, Option.some.inj h⟩
  | cons exchange exchanges => cases h

/-- A look that is replayed runs against every store that serves the exchanges. -/
theorem run_of_replay {S : Type} {serve : S → Request → Reply → S → Prop} {store store' : S}
    {next : Next Polling Found} {exchanges : List (Request × Reply)} {found : Found}
    (h : replay next exchanges = some found) (hstate : next.state? = some state)
    (hserves : Serves serve store exchanges store') :
    Run serve poll state store (exchanges.map Prod.fst) found store' := by
  induction exchanges generalizing next state store with
  | nil =>
    cases next with
    | again | after => cases h
    | done => cases hstate
  | cons exchange exchanges ih =>
    obtain ⟨feed, phase, waits⟩ := state
    obtain ⟨request, reply⟩ := exchange
    obtain ⟨between, hserve, hserves⟩ := hserves
    simp only [replay, hstate, Option.ite_none_right_eq_some] at h
    obtain ⟨rfl, h⟩ := h
    have hturn := turn_of_serve waits hserve
    cases hnext : follow waits (feed.receive phase reply) with
    | again state =>
      rw [hnext] at h hturn
      exact .turn hturn rfl (ih h rfl hserves)
    | after pause state =>
      rw [hnext] at h hturn
      exact .turn hturn rfl (ih h rfl hserves)
    | done found' =>
      rw [hnext] at h hturn
      obtain ⟨rfl, rfl⟩ := replay_done h
      obtain rfl : store' = between := hserves
      exact .last hturn

/-- A look that is under way and runs to its end is part of a session. -/
theorem Session.Reaches.poll {log' : StreamLog} {requests : List Request} {found : Found}
    (hrun : Run (Still serve) poll state log requests found log') :
    Session.Reaches serve grow (⟨.polling state, taken⟩, log) (⟨.idle found.2, taken⟩, log') := by
  induction hrun with
  | last hturn => exact .single (.turn hturn)
  | @turn state state' _ _ _ _ _ next _ hturn hnext hrun ih =>
    refine .head (.turn hturn) ?_
    rw [ofNext_of_state? hnext]
    exact ih

/-- A look that is replayed is part of every session whose store serves the exchanges. -/
theorem Session.Reaches.replay (waits : Bool) {exchanges : List (Request × Reply)} {found : Found}
    (h : Feed.replay (feed.look waits) exchanges = some found)
    (hserve : ∀ exchange ∈ exchanges, serve log exchange.1 exchange.2) :
    Session.Reaches serve grow (⟨.idle feed, taken⟩, log) (⟨.idle found.2, taken⟩, log) := by
  have hstep : Session.Step serve grow (⟨.idle feed, taken⟩, log)
      (⟨.ofNext (feed.look waits), taken⟩, log) := .look waits
  cases hlook : feed.look waits with
  | again state =>
    rw [hlook] at h hstep
    exact .head hstep (Session.Reaches.poll (run_of_replay h rfl (serves_still hserve)))
  | after pause state =>
    rw [hlook] at h hstep
    exact .head hstep (Session.Reaches.poll (run_of_replay h rfl (serves_still hserve)))
  | done found' =>
    rw [hlook] at h hstep
    obtain ⟨rfl, rfl⟩ := replay_done h
    exact .single hstep

/-- What a page with these shards to be read leads to. -/
theorem receive_listed {reply : Reply} {page : Protocol.StreamDescription} {shards : List Shard}
    (hreply : reply.as Protocol.StreamDescription = .ok page)
    (hshards : (feed.learn page).shardsOf page = shards) :
    feed.receive .describing reply =
      (feed.learn page, (feed.learn page).nextShard shards page.lastShardId.isSome) := by
  simp only [receive, hreply, receiveDescription, hshards]

/-- A look whose first reply is a page with these shards to be read. -/
theorem replay_listed {waits : Bool} {reply : Reply} {page : Protocol.StreamDescription}
    {shards : List Shard} (hreply : reply.as Protocol.StreamDescription = .ok page)
    (hshards : (feed.learn page).shardsOf page = shards) (exchanges : List (Request × Reply)) :
    replay (.again ⟨feed, .describing, waits⟩) ((feed.request .describing, reply) :: exchanges) =
      replay (follow waits (feed.learn page,
        (feed.learn page).nextShard shards page.lastShardId.isSome)) exchanges := by
  simp only [replay, Next.state?, if_true, receive_listed hreply hshards]

end Feed

/-! ## Streams to replay looks on -/

open Protocol (RawRecord ShardDescription StreamDescription GetShardIteratorReply GetRecordsReply)

/-- A record of an item that was added. -/
def insertion (sequenceNumber : String) : RawRecord where
  eventName := some "INSERT"
  sequenceNumber
  keys := [("id", .string sequenceNumber)]

/-- Asks for the page of a description behind a shard, or for the first one. -/
def pageBehind (lastShardId : Option String) : Request := .describeStream ⟨"arn", lastShardId⟩

/-- Asks for an iterator at the start of a shard. -/
def startOf (shardId : String) : Request := .getShardIterator ⟨"arn", shardId, .trimHorizon, none⟩

/-- Asks for an iterator behind a position in a shard. -/
def behind (shardId position : String) : Request :=
  .getShardIterator ⟨"arn", shardId, .afterSequenceNumber, some position⟩

/-- Asks for the records at an iterator. -/
def recordsAt (iterator : String) : Request := .getRecords { iterator }

/-- The reply that holds an iterator, or none. -/
def iteratorReply (iterator : Option String) : Reply :=
  replyWith (GetShardIteratorReply.mk iterator)

/-- The reply that holds records, and the iterator behind them, if there is one. -/
def recordsReply (sequenceNumbers : List String) (next : Option String) : Reply :=
  replyWith (GetRecordsReply.mk (sequenceNumbers.map insertion) next)

/-- How a shard is described. -/
def ShardLog.description (shard : ShardLog) : ShardDescription where
  shardId := shard.id
  startingSequenceNumber := shard.start.text
  endingSequenceNumber := shard.stop.map SequenceNumber.text

theorem ShardLog.ofDescription_description (shard : ShardLog) :
    Shard.ofDescription shard.description = shard.toShard := by
  obtain ⟨⟨id, start, stop⟩⟩ := shard
  cases stop <;> rfl

/-- The page of a description with the shards from one place on up to another. -/
def StreamLog.page (log : StreamLog) (first last : ℕ) (lastShardId : Option String) :
    StreamDescription where
  shards := ((log.shards.take last).drop first).map ShardLog.description
  lastShardId

theorem StreamLog.shows_page {log : StreamLog} {first last : ℕ} {lastShardId : Option String}
    (hfirst : first ≤ last) (hlast : last ≤ log.shards.length)
    (hcursor : lastShardId = none ∧ last = log.shards.length ∨
      lastShardId ≠ none ∧ lastShardId = log.cursorAt last) :
    log.Shows first last (log.page first last lastShardId) where
  first_le := hfirst
  last_le := hlast
  shards := by
    simp only [page, List.map_map]
    exact List.map_congr_left fun shard _ => shard.ofDescription_description
  cursor := hcursor

/-- A closed shard with one record. -/
def earlierShard : ShardLog where
  id := "a"
  start := ⟨"100"⟩
  stop := some ⟨"199"⟩
  records := [insertion "100"]
  decimal := ⟨by decide, by decide⟩
  records_decimal := by decide
  records_covered := by
    intro record hrecord
    obtain rfl := List.mem_singleton.mp hrecord
    exact ⟨by decide, by decide⟩
  increasing := List.pairwise_singleton _ _

/-- An open shard behind it, with one or both of two records or none yet. -/
def laterShard (n : ℕ) : ShardLog where
  id := "b"
  start := ⟨"200"⟩
  stop := none
  records := [insertion "200", insertion "201"].take n
  decimal := ⟨by decide, fun _ h => by cases h⟩
  records_decimal := by
    intro record hrecord
    have hboth : ∀ r ∈ [insertion "200", insertion "201"],
        SequenceNumber.isDecimal r.sequenceNumber = true := by decide
    exact hboth record (List.mem_of_mem_take hrecord)
  records_covered := by
    intro record hrecord
    have hboth : ∀ r ∈ [insertion "200", insertion "201"],
        SequenceNumber.value ⟨"200"⟩ ≤ r.number := by decide
    exact ⟨hboth record (List.mem_of_mem_take hrecord), fun _ h => by cases h⟩
  increasing := List.Pairwise.sublist (List.take_sublist _ _) (by decide)

theorem earlierShard_apart (n : ℕ) : earlierShard.toShard.Apart (laterShard n).toShard := by
  rintro k ⟨⟨-, hbelow⟩, ⟨habove, -⟩⟩
  have hstop : k ≤ SequenceNumber.value ⟨"199"⟩ := hbelow ⟨"199"⟩ rfl
  have hstart : SequenceNumber.value ⟨"200"⟩ ≤ k := habove
  have hless : SequenceNumber.value ⟨"199"⟩ < SequenceNumber.value ⟨"200"⟩ := by decide
  omega

theorem laterShard_grows {m n : ℕ} (h : m ≤ n) : (laterShard m).Grows (laterShard n) where
  id := rfl
  start := rfl
  stop := .inl rfl
  records := List.take_prefix_take_left h

/-- A stream of the closed shard and the open one behind it. -/
def closedThenOpen (n : ℕ) : StreamLog where
  shards := [earlierShard, laterShard n]
  nodup := show ["a", "b"].Nodup by decide
  apart := List.pairwise_pair.mpr (earlierShard_apart n)

/-- The closed shard is read first. -/
theorem shardsOf_bothShards (n : ℕ) {feed : Feed} (h : feed.processed = []) :
    feed.shardsOf ((closedThenOpen n).page 0 2 none) =
      [earlierShard.toShard, (laterShard n).toShard] := by
  have hle : SequenceNumber.le ⟨"100"⟩ ⟨"200"⟩ = true := by decide
  rw [Feed.shardsOf, h]
  exact List.mergeSort_of_pairwise (List.pairwise_pair.mpr hle)

/-- The iterators into these shards: the letter is the shard, the digit how many records are
    before. -/
def sampleIterators : Iterators
  | "a0" => ("a", 0)
  | "a1" => ("a", 1)
  | "b0" => ("b", 0)
  | "b1" => ("b", 1)
  | _ => ("b", 2)

end TableClient
