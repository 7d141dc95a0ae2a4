import Mathlib
import TableClient.Proofs.Conversation
import TableClient.Proofs.Stream.Poll

/-!
# Sessions on a stream

A session is what happens on a feed from its beginning on: its user looks for records, once or
waiting for them, and takes records, while the store serves the requests and the stream grows. The
stream may grow at any moment, also between two requests of one look.

Results:
* `turn_poll`: what a turn of a look does.
* `Standing.grows`, `reach_of_grows`: a grown stream leaves a poll where it stood.
* `Session.invariant`: what holds throughout a session.
-/

namespace TableClient

open Protocol (RawRecord)

/-- The phase in which a poll goes on, if it does. -/
def Progress.phase? : Progress → Option Phase
  | .waiting phase => some phase
  | .finished => none
  | .failed _ => none

namespace Feed

/-! ## Sessions -/

/-- Where the user of a feed is: between two calls, or in a look that waits for a reply. -/
inductive Stage where
  | idle (feed : Feed)
  | polling (state : Polling)

namespace Stage

/-- Where the user is behind a step of a look. -/
def ofNext : Next Polling Found → Stage
  | .again state => .polling state
  | .after _ state => .polling state
  | .done (_, feed) => .idle feed

/-- The feed. -/
def feed : Stage → Feed
  | .idle feed => feed
  | .polling state => state.feed

/-- The phase of the look, if there is one. -/
def phase? : Stage → Option Phase
  | .idle _ => none
  | .polling state => some state.phase

end Stage

/-- A session so far. -/
structure Session where
  stage : Stage
  /-- The records that were taken, in order. Each was handed over as a record, or reported by the
      call that took it if it is none. -/
  taken : List RawRecord := []

namespace Session

/-- The records that were accepted: those taken, and those still at hand behind them. -/
def accepted (session : Session) : List RawRecord := session.taken ++ session.stage.feed.buffer

/-- A session that begins to follow a stream. -/
def start (config : Config) (streamArn : String) : Session := ⟨.idle (.ofArn config streamArn), []⟩

end Session

/-- A store that is left as it is by what it serves. -/
def Still (serve : StreamLog → Request → Reply → Prop) (log : StreamLog) (request : Request)
    (reply : Reply) (log' : StreamLog) : Prop :=
  log' = log ∧ serve log request reply

/-- What may happen next in a session. -/
inductive Session.Step (serve : StreamLog → Request → Reply → Prop)
    (grow : StreamLog → StreamLog → Prop) : Session × StreamLog → Session × StreamLog → Prop
  /-- The user looks for records. -/
  | look {feed : Feed} {taken : List RawRecord} {log : StreamLog} (waits : Bool) :
      Step serve grow (⟨.idle feed, taken⟩, log) (⟨.ofNext (feed.look waits), taken⟩, log)
  /-- A look sends a request and gets the reply. -/
  | turn {state : Polling} {taken : List RawRecord} {log log' : StreamLog}
      {requests : List Request} {next : Next Polling Found}
      (h : Turn (Still serve) poll state log requests next log') :
      Step serve grow (⟨.polling state, taken⟩, log) (⟨.ofNext next, taken⟩, log')
  /-- The user takes a record. -/
  | take {feed : Feed} {taken : List RawRecord} {log : StreamLog} :
      Step serve grow (⟨.idle feed, taken⟩, log)
        (⟨.idle feed.take.2, taken ++ feed.buffer.take 1⟩, log)
  /-- The stream grows. -/
  | grow {session : Session} {log log' : StreamLog} (h : grow log log') :
      Step serve grow (session, log) (session, log')

/-- What happens in a session, step by step. -/
abbrev Session.Reaches (serve : StreamLog → Request → Reply → Prop)
    (grow : StreamLog → StreamLog → Prop) :
    Session × StreamLog → Session × StreamLog → Prop :=
  Relation.ReflTransGen (Session.Step serve grow)

variable {serve : StreamLog → Request → Reply → Prop} {grow : StreamLog → StreamLog → Prop}
  {iterators : Iterators} {log log' before after : StreamLog} {feed feed' : Feed}
  {phase : Phase} {waits : Bool} {shard grown : ShardLog} {picture : Shard} {pictures : List Shard}

/-! ## Turns -/

/-- What follows a reply in a look. -/
def follow (waits : Bool) : Feed × Progress → Next Polling Found
  | (feed, .waiting phase) => .again ⟨feed, phase, waits⟩
  | (feed, .finished) => feed.afterPoll waits
  | (feed, .failed error) => .done (.error error, feed)

/-- What a turn of a look does. -/
theorem turn_poll {S : Type} {serve : S → Request → Reply → S → Prop} {store store' : S}
    {requests : List Request} {next : Next Polling Found}
    (h : Turn serve poll ⟨feed, phase, waits⟩ store requests next store') :
    ∃ reply, serve store (feed.request phase) reply store' ∧ requests = [feed.request phase] ∧
      next = follow waits (feed.receive phase reply) := by
  have hpoll : poll ⟨feed, phase, waits⟩ =
      .ask (feed.request phase) fun reply => follow waits (feed.receive phase reply) := rfl
  cases h with
  | silent h => cases hpoll.symm.trans h
  | answered h hserve =>
    cases hpoll.symm.trans h
    exact ⟨_, hserve, rfl, rfl⟩

/-- Behind a reply the poll goes on, or it is over; then the user is idle or polls anew. -/
theorem follow_cases (waits : Bool) (feed : Feed) (progress : Progress) :
    let stage := Stage.ofNext (follow waits (feed, progress))
    stage.feed = feed ∧ (stage.phase? = progress.phase? ∨
      progress.phase? = none ∧ stage.phase? = some .describing) := by
  cases progress with
  | waiting phase => exact ⟨rfl, .inl rfl⟩
  | failed error => exact ⟨rfl, .inl rfl⟩
  | finished =>
    simp only [follow, afterPoll]
    split_ifs
    · exact ⟨rfl, .inl rfl⟩
    · exact ⟨rfl, .inl rfl⟩
    · exact ⟨rfl, .inr ⟨rfl, rfl⟩⟩

/-- A look that gives nothing behind a reply has come to the end of a poll with nothing at hand. -/
theorem follow_nothing {progress : Progress}
    (h : follow waits (feed, progress) = .done (.ok false, feed')) :
    progress = .finished ∧ feed' = feed ∧ feed.buffer = [] := by
  cases progress with
  | waiting phase => cases h
  | failed error => cases h
  | finished =>
    simp only [follow, afterPoll] at h
    split_ifs at h with hbuffer hend
    · cases h
    · obtain rfl : feed = feed' := (Prod.mk.inj (Next.done.inj h)).2
      exact ⟨rfl, rfl, by simpa using hbuffer⟩

theorem ofNext_of_state? {next : Next Polling Found} {state : Polling}
    (h : next.state? = some state) : Stage.ofNext next = .polling state := by
  cases next with
  | again => exact congrArg Stage.polling (Option.some.inj h)
  | after => exact congrArg Stage.polling (Option.some.inj h)
  | done => cases h

theorem look_cases (feed : Feed) (waits : Bool) :
    let stage := Stage.ofNext (feed.look waits)
    stage.feed = feed ∧ (stage.phase? = none ∨ stage.phase? = some .describing) := by
  simp only [look]
  split_ifs
  · exact ⟨rfl, .inl rfl⟩
  · exact ⟨rfl, .inl rfl⟩
  · exact ⟨rfl, .inr rfl⟩

/-- A look that sends a request begins a poll with nothing at hand. -/
theorem look_again {state : Polling} (h : feed.look waits = .again state) :
    feed.buffer = [] ∧ state = ⟨feed, .describing, waits⟩ := by
  simp only [look] at h
  split_ifs at h with hbuffer hclosed
  · exact ⟨by simpa using hbuffer, (Next.again.inj h).symm⟩

theorem take_eq (feed : Feed) : feed.take.2 = { feed with buffer := feed.buffer.tail } := by
  obtain ⟨⟩ := feed
  simp only [take]
  split <;> simp_all

/-! ## Shards that are not left yet -/

/-- The shards of the page that is being read, if there is one, that are not left yet. -/
def picturesOf (phase? : Option Phase) : List Shard := (phase?.map Phase.pictures).getD []

theorem picturesOf_nextShard (feed : Feed) (rest : List Shard) (more : Bool) :
    picturesOf (feed.nextShard rest more).phase? = rest := by
  rcases feed.nextShard_cases rest more with
    ⟨reading, rfl, -, -, hnext⟩ | ⟨rfl, -, -, hnext⟩ | ⟨rfl, -, hnext⟩
  · obtain ⟨phase, hphase, hreading⟩ := feed.openShard_eq_waiting reading
    simp [hnext, hphase, Progress.phase?, picturesOf, Phase.pictures, hreading]
  · rw [hnext]
    rfl
  · rw [hnext]
    rfl

theorem picturesOf_congr {phase' : Phase} (h : phase'.reading? = phase.reading?) :
    picturesOf (some phase') = picturesOf (some phase) := by
  simp [picturesOf, Phase.pictures, h]

theorem picturesOf_reading {reading : ShardReading} (h : phase.reading? = some reading) :
    picturesOf (some phase) = reading.shard :: reading.rest := by
  simp [picturesOf, Phase.pictures, h]

theorem mem_mark {there : List String} {name new : String} :
    name ∈ mark there new ↔ name ∈ there ∨ name = new := by
  unfold mark
  split
  · rename_i h
    refine ⟨.inl, ?_⟩
    rintro (hmem | rfl)
    · exact hmem
    · simpa using h
  · rw [List.mem_append, List.mem_singleton]

/-! ## Growing streams -/

/-- The shard that the last record seen is in was there before the stream grew. -/
theorem Recalls.exists_shard (h : Recalls before feed) (hgrows : before.Grows after)
    {position : SequenceNumber} (hposition : position ∈ feed.lastSeen)
    (hgrown : grown ∈ after.shards) (hmem : position ∈ grown.positions) :
    ∃ shard ∈ before.shards, shard.Grows grown ∧ position ∈ shard.positions := by
  obtain ⟨shard, hshard, hin⟩ := h position hposition
  obtain ⟨other, hother, hshardGrows⟩ := hgrows.exists_shard hshard
  have hin' := hshardGrows.mem_positions hin
  obtain rfl := after.eq_of_mem_positions hother hgrown hin'
    (grown.covers_of_mem_positions hmem)
  exact ⟨shard, hshard, hshardGrows, hin⟩

theorem Recalls.grows (h : Recalls before feed) (hgrows : before.Grows after) :
    Recalls after feed := by
  intro position hposition
  obtain ⟨shard, hshard, hmem⟩ := h position hposition
  obtain ⟨grown, hgrown, hshardGrows⟩ := hgrows.exists_shard hshard
  exact ⟨grown, hgrown, hshardGrows.mem_positions hmem⟩

/-- The feed is as far in a grown shard as it was before. -/
theorem reach_of_grows (hrecalls : Recalls before feed) (hgrows : before.Grows after)
    (hshard : shard ∈ before.shards) (hgrown : grown ∈ after.shards) (h : shard.Grows grown) :
    feed.reach grown = feed.reach shard := by
  by_cases hmem : ∃ last ∈ feed.lastSeen, last ∈ shard.positions
  · obtain ⟨last, hlast, hin⟩ := hmem
    rw [reach_of_mem hlast (h.mem_positions hin), reach_of_mem hlast hin, h.upTo_eq hin]
  · push Not at hmem
    rw [reach_of_not_mem hmem, reach_of_not_mem]
    intro last hlast hin
    obtain ⟨other, hother, hotherGrows, hotherIn⟩ := hrecalls.exists_shard hgrows hlast hgrown hin
    obtain rfl := before.eq_of_id_eq hother hshard (hotherGrows.id.symm.trans h.id)
    exact hmem last hlast hotherIn

/-- The feed has seen no record of a shard that was added. -/
theorem reach_of_added (hrecalls : Recalls before feed) (hgrows : before.Grows after)
    (hgrown : grown ∈ after.shards) (hadded : ∀ shard ∈ before.shards, ¬ shard.Grows grown) :
    feed.reach grown = 0 := by
  refine reach_of_not_mem fun last hlast hin => ?_
  obtain ⟨shard, hshard, hshardGrows, -⟩ := hrecalls.exists_shard hgrows hlast hgrown hin
  exact hadded shard hshard hshardGrows

theorem Pending.grows (h : Pending before feed pictures) (hgrows : before.Grows after) :
    Pending after feed pictures := by
  refine ⟨fun picture hpicture => ?_, h.apart⟩
  obtain ⟨shard, hshard, hpictures, howns⟩ := h.pictured picture hpicture
  obtain ⟨grown, hgrown, hshardGrows⟩ := hgrows.exists_shard hshard
  exact ⟨grown, hgrown, hpictures.grows hshardGrows, fun last hlast hcontains =>
    hshardGrows.mem_positions (howns last hlast hcontains)⟩

/-- A grown stream leaves a poll where it stood. -/
theorem Standing.grows (h : Standing iterators before feed phase) (hrecalls : Recalls before feed)
    (hgrows : before.Grows after) : Standing iterators after feed phase := by
  cases phase with
  | describing => trivial
  | resuming reading position => exact ⟨h.1.grows hgrows, h.2⟩
  | rewinding reading => exact Pending.grows h hgrows
  | reading reading iterator =>
    obtain ⟨hpending, shard, hshard, hid, n, hn, hiterator⟩ := h
    obtain ⟨grown, hgrown, hshardGrows⟩ := hgrows.exists_shard hshard
    rw [← reach_of_grows hrecalls hgrows hshard hgrown hshardGrows] at hn
    rw [← hshardGrows.id] at hid hiterator
    exact ⟨hpending.grows hgrows, grown, hgrown, hid, n, hn, hiterator⟩

/-! ## Invariants -/

/-- A poll stands where it may, if there is one. -/
structure Placed (iterators : Iterators) (log : StreamLog) (feed : Feed) (phase? : Option Phase) :
    Prop where
  recalls : Recalls log feed
  standing : ∀ phase ∈ phase?, Standing iterators log feed phase

/-- What a reply leads to in a poll, if it is an answer or fails. -/
inductive Leads (iterators : Iterators) (log : StreamLog) (feed : Feed) (phase : Phase)
    (reply : Reply) : List RawRecord → Feed → Progress → Prop
  | answered {fresh : List RawRecord} {feed' : Feed} {progress : Progress}
      (h : Moves iterators log feed reply phase fresh feed' progress) :
      Leads iterators log feed phase reply fresh feed' progress
  | failed {feed' : Feed} {progress : Progress} (hfails : (feed.request phase).Fails reply)
      (h : Falters iterators log feed phase feed' progress) :
      Leads iterators log feed phase reply [] feed' progress

/-- A reply that is an answer or fails leads to what it says, and the poll stands where it may. -/
theorem Placed.leads (h : Placed iterators log feed (some phase)) {reply : Reply}
    (hreply : log.Answers iterators (feed.request phase) reply ∨ (feed.request phase).Fails reply)
    {progress : Progress} (hreceive : feed.receive phase reply = (feed', progress)) :
    ∃ fresh, Leads iterators log feed phase reply fresh feed' progress ∧
      feed'.buffer = feed.buffer ++ fresh ∧ Placed iterators log feed' progress.phase? := by
  have hstanding := h.standing phase rfl
  have hplaced : (Recalls log feed' ∧
      ∀ phase', progress = .waiting phase' → Standing iterators log feed' phase') →
        Placed iterators log feed' progress.phase? := by
    rintro ⟨hrecalls, hwaiting⟩
    refine ⟨hrecalls, fun phase' hphase' => hwaiting phase' ?_⟩
    cases progress with
    | waiting phase => rw [Option.some.inj hphase']
    | finished | failed => cases hphase'
  rcases hreply with hanswers | hfails
  · obtain ⟨fresh, hmoves⟩ := hstanding.moves hanswers
    rw [hreceive] at hmoves
    exact ⟨fresh, .answered hmoves, hmoves.buffer, hplaced (hmoves.standing h.recalls hstanding)⟩
  · have hfalters := hstanding.falters hfails
    rw [hreceive] at hfalters
    refine ⟨[], .failed hfails hfalters, ?_, hplaced (hfalters.standing h.recalls)⟩
    rw [hfalters.buffer, List.append_nil]

/-- What a turn of a look leads to, if the reply is an answer or fails. -/
theorem Placed.turn (h : Placed iterators log feed (some phase))
    (hserve : ∀ {log request reply}, serve log request reply →
      log.Answers iterators request reply ∨ request.Fails reply) {requests : List Request}
    {next : Next Polling Found}
    (hturn : Turn (Still serve) poll ⟨feed, phase, waits⟩ log requests next log') :
    ∃ reply fresh feed' progress, log' = log ∧ serve log (feed.request phase) reply ∧
      Leads iterators log feed phase reply fresh feed' progress ∧
      feed'.buffer = feed.buffer ++ fresh ∧ Placed iterators log feed' progress.phase? ∧
      next = follow waits (feed', progress) := by
  obtain ⟨reply, ⟨hlog, hreply⟩, -, rfl⟩ := turn_poll hturn
  obtain ⟨⟨feed', progress⟩, hreceive⟩ : ∃ result, feed.receive phase reply = result := ⟨_, rfl⟩
  obtain ⟨fresh, hleads, hbuffer, hplaced⟩ := h.leads (hserve hreply) hreceive
  exact ⟨reply, fresh, feed', progress, hlog, hreply, hleads, hbuffer, hplaced,
    congrArg (follow waits) hreceive⟩

/-- A reply leaves the last record seen as it was, or it brings records of a shard, of which those
    are accepted that were not seen. -/
theorem Leads.read {reply : Reply} {fresh : List RawRecord} {progress : Progress}
    (h : Leads iterators log feed phase reply fresh feed' progress) :
    (fresh = [] ∧ feed'.lastSeen = feed.lastSeen) ∨
      ∃ shard ∈ log.shards, ∃ m ≤ shard.records.length,
        fresh = feed.unseen shard m ∧ feed'.lastSeen = (feed.extend fresh).lastSeen := by
  cases h with
  | answered h =>
    cases h with
    | listed | opened | paused => exact .inl ⟨rfl, rfl⟩
    | absent =>
      refine .inl ⟨rfl, ?_⟩
      split_ifs <;> rfl
    | drained hreads | continued hreads =>
      exact .inr ⟨_, hreads.mem, _, hreads.length_le, rfl, rfl⟩
  | failed hfails h => cases h <;> exact .inl ⟨rfl, rfl⟩

theorem Leads.moves {reply : Reply} {fresh : List RawRecord} {progress : Progress}
    (h : Leads iterators log feed phase reply fresh feed' progress)
    (hanswers : log.Answers iterators (feed.request phase) reply) :
    Moves iterators log feed reply phase fresh feed' progress := by
  cases h with
  | answered h => exact h
  | failed hfails => exact absurd hfails hanswers.not_fails

/-- A property of the stream, the records accepted, the feed and the phase of a look that is
    preserved by whatever happens in a session. -/
structure Session.Preserves (serve : StreamLog → Request → Reply → Prop)
    (grow : StreamLog → StreamLog → Prop) (iterators : Iterators)
    (holds : StreamLog → List RawRecord → Feed → Option Phase → Prop) : Prop where
  look : ∀ {log accepted feed}, holds log accepted feed none →
    holds log accepted feed (some .describing)
  reply : ∀ {log accepted feed phase reply fresh feed' progress},
    Placed iterators log feed (some phase) → holds log accepted feed (some phase) →
    serve log (feed.request phase) reply →
    Leads iterators log feed phase reply fresh feed' progress →
    holds log (accepted ++ fresh) feed' progress.phase?
  take : ∀ {log accepted feed buffer}, holds log accepted feed none →
    holds log accepted { feed with buffer } none
  grows : ∀ {before after accepted feed phase?}, Placed iterators before feed phase? →
    holds before accepted feed phase? → grow before after → holds after accepted feed phase?

/-- A property holds at a moment of a session, and the poll stands where it may. -/
def Session.Has (iterators : Iterators)
    (holds : StreamLog → List RawRecord → Feed → Option Phase → Prop)
    (moment : Session × StreamLog) : Prop :=
  Placed iterators moment.2 moment.1.stage.feed moment.1.stage.phase? ∧
    holds moment.2 moment.1.accepted moment.1.stage.feed moment.1.stage.phase?

section Invariant

variable {holds : StreamLog → List RawRecord → Feed → Option Phase → Prop}
  {moment moment' : Session × StreamLog}

theorem Placed.describing (h : Recalls log feed) :
    Placed iterators log feed (some .describing) := by
  refine ⟨h, fun phase hphase => ?_⟩
  obtain rfl := Option.some.inj hphase
  trivial

/-- Behind a step of a look a property holds if it does for the feed then; the look may begin a new
    poll. -/
theorem Session.Preserves.has (h : Session.Preserves serve grow iterators holds) {stage : Stage}
    {taken : List RawRecord} {phase? : Option Phase} (hfeed : stage.feed = feed)
    (hphase : stage.phase? = phase? ∨ phase? = none ∧ stage.phase? = some .describing)
    (hplaced : Placed iterators log feed phase?)
    (hholds : holds log (taken ++ feed.buffer) feed phase?) :
    Session.Has iterators holds (⟨stage, taken⟩, log) := by
  subst hfeed
  rcases hphase with rfl | ⟨rfl, hagain⟩
  · exact ⟨hplaced, hholds⟩
  · simp only [Session.Has, hagain]
    exact ⟨.describing hplaced.recalls, h.look hholds⟩

/-- Whatever happens next in a session preserves the property. -/
theorem Session.Step.preserves
    (hserve : ∀ {log request reply}, serve log request reply →
      log.Answers iterators request reply ∨ request.Fails reply)
    (hgrow : ∀ {before after}, grow before after → before.Grows after)
    (hpreserves : Session.Preserves serve grow iterators holds)
    (h : Session.Step serve grow moment moment') (hhas : Session.Has iterators holds moment) :
    Session.Has iterators holds moment' := by
  obtain ⟨hplaced, hholds⟩ := hhas
  cases h with
  | @look feed taken log waits =>
    obtain ⟨hfeed, hphase⟩ := feed.look_cases waits
    exact hpreserves.has hfeed (hphase.imp_right fun h => ⟨rfl, h⟩) hplaced hholds
  | @turn state taken log log' requests next h =>
    obtain ⟨feed, phase, waits⟩ := state
    replace hplaced : Placed iterators log feed (some phase) := hplaced
    replace hholds : holds log (taken ++ feed.buffer) feed (some phase) := hholds
    obtain ⟨reply, fresh, feed', progress, rfl, hreply, hleads, hbuffer, hplaced', rfl⟩ :=
      hplaced.turn hserve h
    have hholds' := hpreserves.reply hplaced hholds hreply hleads
    rw [List.append_assoc, ← hbuffer] at hholds'
    obtain ⟨hfeed, hphase⟩ := follow_cases waits feed' progress
    exact hpreserves.has hfeed hphase hplaced' hholds'
  | @take feed taken log =>
    have haccepted : taken ++ feed.buffer.take 1 ++ feed.buffer.tail = taken ++ feed.buffer := by
      rw [List.append_assoc, ← List.drop_one, List.take_append_drop]
    have hholds' : holds log (taken ++ feed.buffer.take 1 ++ feed.buffer.tail)
        { feed with buffer := feed.buffer.tail } none := by
      rw [haccepted]
      exact hpreserves.take hholds
    rw [take_eq]
    exact hpreserves.has rfl (.inl rfl) ⟨hplaced.recalls.congr rfl, fun _ h => by cases h⟩ hholds'
  | @grow session log log' h =>
    have hgrows := hgrow h
    exact ⟨⟨hplaced.recalls.grows hgrows, fun phase hmem =>
      (hplaced.standing phase hmem).grows hplaced.recalls hgrows⟩,
      hpreserves.grows hplaced hholds h⟩

/-- What holds at the beginning of a session, and is preserved by whatever happens in it, holds at
    every moment of it. -/
theorem Session.invariant
    (hserve : ∀ {log request reply}, serve log request reply →
      log.Answers iterators request reply ∨ request.Fails reply)
    (hgrow : ∀ {before after}, grow before after → before.Grows after)
    (hpreserves : Session.Preserves serve grow iterators holds) {config : Config}
    {streamArn : String} (hstart : holds log [] (ofArn config streamArn) none)
    (h : Session.Reaches serve grow (.start config streamArn, log) moment) :
    Session.Has iterators holds moment := by
  induction h with
  | refl =>
    exact ⟨⟨fun position h => (by cases h), fun phase h => (by cases h)⟩, hstart⟩
  | tail _ hstep ih => exact hstep.preserves hserve hgrow hpreserves ih

end Invariant

end Feed

end TableClient
