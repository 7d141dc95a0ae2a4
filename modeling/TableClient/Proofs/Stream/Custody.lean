import Mathlib
import TableClient.Proofs.Stream.Session
import TableClient.Proofs.Stream.Replay
import TableClient.Proofs.Trace

/-!
# What becomes of the records of a feed

The store may reply anything to the requests of a feed, and its user may look for records, take
records and give up a look in any order. Which records the feed accepts is told by the replies
alone: those of the shards that were read, without the ones that are not behind the record accepted
last. They all come to the user, in this order, whatever ends the look that has brought them.

Results:
* `Kept.receive`: what is known of a feed is known behind each reply.
* `Course.Sound.after`: what is known of a feed is known at any time.
* `records_kept`: no record is lost, a look that waits finds nothing only at the end of the stream,
  and a closed feed stays closed and sends nothing.
-/

namespace TableClient

open Protocol (RawRecord StreamDescription GetShardIteratorReply GetRecordsReply)

namespace Feed

/-! ## Courses -/

/-- What happens on a feed. -/
inductive Event where
  /-- The user looks for records. -/
  | look (waits : Bool)
  /-- The request that a look has sent gets a reply. -/
  | reply (reply : Reply)
  /-- The user takes a record. -/
  | take
  /-- The user gives up a look. -/
  | giveUp

/-- All that has happened on a feed. -/
structure Course where
  stage : Stage
  /-- The requests that got a reply. -/
  exchanges : List (Exchanged Polling) := []
  /-- The records that were taken. -/
  taken : List RawRecord := []
  /-- What the look that has just ended gave, and whether it was one that waits. -/
  found? : Option (Bool × Except Error Bool) := none

namespace Course

/-- A feed on which nothing has happened. -/
def start (config : Config) (streamArn : String) : Course where
  stage := .idle (.ofArn config streamArn)

/-- What a look gave, if it is over. -/
def outcome? (waits : Bool) : Next Polling Found → Option (Bool × Except Error Bool)
  | .done (outcome, _) => some (waits, outcome)
  | .again _ | .after _ _ => none

/-- Goes on with a look. -/
def proceed (course : Course) (waits : Bool) (next : Next Polling Found) : Course :=
  { course with stage := .ofNext next, found? := outcome? waits next }

/-- What an event leads to. During a look the user can only give it up, and without one there is no
    request to reply to. -/
def step (course : Course) (event : Event) : Course :=
  match course.stage, event with
  | .idle feed, .look waits => course.proceed waits (feed.look waits)
  | .idle feed, .take =>
    { course with
      stage := .idle feed.take.2
      taken := course.taken ++ feed.buffer.take 1
      found? := none }
  | .polling state, .reply reply =>
    let next := (poll state).answer reply
    let exchanged := ⟨state, state.feed.request state.phase, reply, next.pause⟩
    { course with exchanges := course.exchanges ++ [exchanged] }.proceed state.waits next
  | .polling state, .giveUp => { course with stage := .idle state.feed, found? := none }
  | _, _ => course

/-- What events lead to, one after the other. -/
def after (course : Course) (events : List Event) : Course := events.foldl step course

end Course

end Feed

/-! ## What the replies tell -/

namespace Exchanged

/-- The page of the description that came. -/
def page? (exchanged : Exchanged Feed.Polling) : Option StreamDescription :=
  match exchanged.state.phase with
  | .describing => (exchanged.reply.as StreamDescription).toOption
  | _ => none

/-- The records that came, and the shard that was read. -/
def records? (exchanged : Exchanged Feed.Polling) : Option (Shard × List RawRecord) :=
  match exchanged.state.phase with
  | .reading reading _ =>
    (exchanged.reply.as GetRecordsReply).toOption.map fun answer => (reading.shard, answer.records)
  | _ => none

/-- A shard was read to its end: no iterator came with its records, or none to begin with. -/
def Finishes (exchanged : Exchanged Feed.Polling) (shardId : String) : Prop :=
  match exchanged.state.phase with
  | .rewinding reading => reading.shard.id = shardId ∧ reading.refreshes = 0 ∧
    exchanged.reply.as GetShardIteratorReply = .ok ⟨none⟩
  | .reading reading _ => reading.shard.id = shardId ∧
    ∃ answer, exchanged.reply.as GetRecordsReply = .ok answer ∧ answer.next = none
  | _ => False

end Exchanged

namespace Feed

/-- The pages of the description that came. -/
def pagesOf (exchanges : List (Exchanged Polling)) : List StreamDescription :=
  exchanges.filterMap Exchanged.page?

/-- The records that are accepted, when some were before. -/
def acceptedBehind (accepted : List RawRecord) (exchanged : Exchanged Polling) : List RawRecord :=
  match exchanged.records? with
  | some (shard, records) =>
    accepted ++ admitted shard (accepted.getLast?.map RawRecord.position) records
  | none => accepted

/-- The records that were accepted. -/
def acceptedOf (exchanges : List (Exchanged Polling)) : List RawRecord :=
  exchanges.foldl acceptedBehind []

variable {exchanges : List (Exchanged Polling)} {exchanged : Exchanged Polling}
  {taken records : List RawRecord} {feed : Feed} {state : Polling} {page : StreamDescription}
  {shard : Shard}

theorem pagesOf_append_none (h : exchanged.page? = none) :
    pagesOf (exchanges ++ [exchanged]) = pagesOf exchanges := by
  simp [pagesOf, h]

theorem pagesOf_append_some (h : exchanged.page? = some page) :
    pagesOf (exchanges ++ [exchanged]) = pagesOf exchanges ++ [page] := by
  simp [pagesOf, h]

theorem acceptedOf_append_none (h : exchanged.records? = none) :
    acceptedOf (exchanges ++ [exchanged]) = acceptedOf exchanges := by
  simp [acceptedOf, acceptedBehind, h]

theorem acceptedOf_append_some (h : exchanged.records? = some (shard, records)) :
    acceptedOf (exchanges ++ [exchanged]) = acceptedOf exchanges ++
      admitted shard ((acceptedOf exchanges).getLast?.map RawRecord.position) records := by
  simp [acceptedOf, acceptedBehind, h]

theorem mem_foldl_mark {there names : List String} {name : String} :
    name ∈ names.foldl mark there ↔ name ∈ there ∨ name ∈ names := by
  induction names generalizing there with
  | nil => simp
  | cons first names ih => rw [List.foldl_cons, ih, mem_mark, List.mem_cons, or_assoc]

/-! ## What is known of a feed -/

/-- What is known of a feed from what has happened on it. -/
structure Kept (exchanges : List (Exchanged Polling)) (taken : List RawRecord) (feed : Feed) :
    Prop where
  accepted : taken ++ feed.buffer = acceptedOf exchanges
  lastSeen : feed.lastSeen = (acceptedOf exchanges).getLast?.map RawRecord.position
  described : ∀ page ∈ pagesOf exchanges, ∀ shown ∈ page.shards, shown.shardId ∈ feed.described
  processed : ∀ id ∈ feed.processed, ∃ exchanged ∈ exchanges, exchanged.Finishes id
  disabled : feed.disabled = true →
    ∃ page, (pagesOf exchanges).getLast? = some page ∧ page.status = .disabled

namespace Kept

theorem ofArn (config : Config) (streamArn : String) : Kept [] [] (ofArn config streamArn) :=
  ⟨rfl, rfl, nofun, nofun, nofun⟩

theorem close (h : Kept exchanges taken feed) : Kept exchanges taken feed.close :=
  ⟨h.accepted, h.lastSeen, h.described, h.processed, h.disabled⟩

theorem take (h : Kept exchanges taken feed) :
    Kept exchanges (taken ++ feed.buffer.take 1) feed.take.2 := by
  rw [take_eq]
  refine ⟨?_, h.lastSeen, h.described, h.processed, h.disabled⟩
  rw [List.append_assoc, ← List.drop_one, List.take_append_drop]
  exact h.accepted

theorem markProcessed (h : Kept exchanges taken feed)
    (hfinishes : ∃ exchanged ∈ exchanges, exchanged.Finishes shard.id) :
    Kept exchanges taken (feed.markProcessed shard) := by
  refine ⟨h.accepted, h.lastSeen, h.described, fun id hid => ?_, h.disabled⟩
  rcases mem_mark.mp hid with hid | rfl
  · exact h.processed id hid
  · exact hfinishes

theorem processed_append (h : Kept exchanges taken feed) (exchanged : Exchanged Polling) :
    ∀ id ∈ feed.processed, ∃ other ∈ exchanges ++ [exchanged], other.Finishes id := by
  intro id hid
  obtain ⟨other, hother, hfinishes⟩ := h.processed id hid
  exact ⟨other, List.mem_append_left _ hother, hfinishes⟩

/-- A reply that brings neither a page nor records. -/
theorem silent (h : Kept exchanges taken feed) (hrecords : exchanged.records? = none)
    (hpage : exchanged.page? = none) : Kept (exchanges ++ [exchanged]) taken feed := by
  refine ⟨?_, ?_, ?_, h.processed_append exchanged, ?_⟩
  · rw [acceptedOf_append_none hrecords, h.accepted]
  · rw [acceptedOf_append_none hrecords, h.lastSeen]
  · rw [pagesOf_append_none hpage]
    exact h.described
  · rw [pagesOf_append_none hpage]
    exact h.disabled

/-- A page of the description. -/
theorem learn (h : Kept exchanges taken feed) (hrecords : exchanged.records? = none)
    (hpage : exchanged.page? = some page) :
    Kept (exchanges ++ [exchanged]) taken (feed.learn page) := by
  refine ⟨?_, ?_, ?_, h.processed_append exchanged, fun hdisabled => ?_⟩
  · rw [acceptedOf_append_none hrecords, ← h.accepted]
    rfl
  · rw [acceptedOf_append_none hrecords, ← h.lastSeen]
    rfl
  · intro other hother shown hshown
    rw [pagesOf_append_some hpage, List.mem_append, List.mem_singleton] at hother
    refine mem_foldl_mark.mpr ?_
    rcases hother with hother | rfl
    · exact .inl (h.described other hother shown hshown)
    · exact .inr (List.mem_map_of_mem hshown)
  · rw [pagesOf_append_some hpage]
    exact ⟨page, List.getLast?_concat, of_decide_eq_true hdisabled⟩

/-- Records of a shard. -/
theorem extend (h : Kept exchanges taken feed)
    (hrecords : exchanged.records? = some (shard, records)) (hpage : exchanged.page? = none) :
    Kept (exchanges ++ [exchanged]) taken
      (feed.extend (admitted shard feed.lastSeen records)) := by
  refine ⟨?_, ?_, ?_, h.processed_append exchanged, ?_⟩
  · rw [acceptedOf_append_some hrecords, ← h.lastSeen, ← h.accepted, List.append_assoc]
    rfl
  · rw [acceptedOf_append_some hrecords, ← h.lastSeen, List.getLast?_append, Option.map_or,
      ← h.lastSeen]
    rfl
  · rw [pagesOf_append_none hpage]
    exact h.described
  · rw [pagesOf_append_none hpage]
    exact h.disabled

/-- What is known of a feed is known behind each reply. -/
theorem receive (h : Kept exchanges taken state.feed) (request : Request) (reply : Reply)
    (pause : ℕ) : Kept (exchanges ++ [⟨state, request, reply, pause⟩]) taken
      (state.feed.receive state.phase reply).1 := by
  obtain ⟨feed, phase, waits⟩ := state
  replace h : Kept exchanges taken feed := h
  let exchanged : Exchanged Polling := ⟨⟨feed, phase, waits⟩, request, reply, pause⟩
  show Kept (exchanges ++ [exchanged]) taken (feed.receive phase reply).1
  cases phase with
  | describing =>
    cases hreply : reply.as StreamDescription with
    | ok page =>
      have hpage : exchanged.page? = some page := by
        simp only [exchanged, Exchanged.page?, hreply]
        rfl
      simp only [Feed.receive, hreply]
      exact h.learn rfl hpage
    | error cause =>
      have hpage : exchanged.page? = none := by
        simp only [exchanged, Exchanged.page?, hreply]
        rfl
      simp only [Feed.receive, hreply]
      cases cause with
      | resourceNotFound => exact (h.silent rfl hpage).close
      | _ => exact h.silent rfl hpage
  | resuming reading position =>
    have hsilent : Kept (exchanges ++ [exchanged]) taken feed := h.silent rfl rfl
    simp only [Feed.receive, receiveResumed]
    split <;> exact hsilent
  | rewinding reading =>
    have hsilent : Kept (exchanges ++ [exchanged]) taken feed := h.silent rfl rfl
    simp only [Feed.receive, receiveRewound, leaveShard]
    split
    · exact hsilent
    · rename_i hreply
      split_ifs with hfirst
      · exact hsilent.markProcessed
          ⟨exchanged, List.mem_append_right _ List.mem_cons_self, rfl, hfirst, hreply⟩
      · exact hsilent
    · exact hsilent.close
    · exact hsilent
  | reading reading iterator =>
    cases hreply : reply.as GetRecordsReply with
    | ok answer =>
      have hrecords : exchanged.records? = some (reading.shard, answer.records) := by
        simp only [exchanged, Exchanged.records?, hreply]
        rfl
      have hextend := h.extend hrecords rfl
      simp only [Feed.receive, hreply, receiveRecords, foldl_accept_eq, leaveShard]
      split
      · rename_i hnext
        exact hextend.markProcessed
          ⟨exchanged, List.mem_append_right _ List.mem_cons_self, rfl, answer, hreply, hnext⟩
      · split_ifs <;> exact hextend
    | error cause =>
      have hrecords : exchanged.records? = none := by
        simp only [exchanged, Exchanged.records?, hreply]
        rfl
      have hsilent : Kept (exchanges ++ [exchanged]) taken feed := h.silent hrecords rfl
      simp only [Feed.receive, hreply]
      cases cause with
      | resourceNotFound => exact hsilent.close
      | expiredIterator message =>
        simp only [receiveRecords]
        split_ifs <;> exact hsilent
      | _ => exact hsilent

end Kept

/-! ## Closing -/

variable {feed' : Feed} {progress : Progress}

/-- A reply closes the feed only at the end of a poll. -/
theorem closed_receive (feed : Feed) (phase : Phase) (reply : Reply) :
    (feed.receive phase reply).1.closed = feed.closed ∨
      (feed.receive phase reply).2 = .finished := by
  cases phase with
  | describing =>
    simp only [receive, receiveDescription]
    split
    · exact .inl rfl
    · exact .inr rfl
    · exact .inl rfl
  | resuming reading position =>
    simp only [receive, receiveResumed]
    split <;> exact .inl rfl
  | rewinding reading =>
    simp only [receive, receiveRewound, leaveShard]
    split
    · exact .inl rfl
    · split_ifs <;> exact .inl rfl
    · exact .inr rfl
    · exact .inl rfl
  | reading reading iterator =>
    simp only [receive, receiveRecords, foldl_accept_eq, leaveShard]
    split
    · split
      · exact .inl rfl
      · split_ifs <;> exact .inl rfl
    · split_ifs <;> exact .inl rfl
    · exact .inr rfl
    · exact .inl rfl

/-! ## Looks -/

/-- A look goes on only while the feed is open. One that waits gives nothing only if nothing is at
    hand and the feed is closed, or the stream is disabled and every shard was read to its end. -/
structure Proper (waits : Bool) (next : Next Polling Found) : Prop where
  opened : ∀ state, next.state? = some state → state.feed.closed = false
  nothing : ∀ feed, waits = true → next = .done (.ok false, feed) →
    feed.buffer = [] ∧ (feed.closed = true ∨ feed.disabled = true ∧ feed.isDrained = true)

theorem proper_done {waits : Bool} {outcome : Except Error Bool}
    (h : waits = true → outcome = .ok false → feed.buffer = [] ∧
      (feed.closed = true ∨ feed.disabled = true ∧ feed.isDrained = true)) :
    Proper waits (.done (outcome, feed)) where
  opened state hstate := by cases hstate
  nothing other hwaits hdone := by
    obtain ⟨rfl, rfl⟩ := Prod.mk.inj (Next.done.inj hdone)
    exact h hwaits rfl

theorem proper_of_state? {waits : Bool} {next : Next Polling Found}
    (hstate : next.state? = some state) (hopen : state.feed.closed = false) :
    Proper waits next where
  opened other hother := by
    obtain rfl := Option.some.inj (hstate.symm.trans hother)
    exact hopen
  nothing other _ hdone := by
    rw [hdone] at hstate
    cases hstate

theorem proper_look (feed : Feed) (waits : Bool) : Proper waits (feed.look waits) := by
  rw [look]
  split_ifs with hbuffer hclosed
  · exact proper_done fun _ h => by cases h
  · exact proper_done fun _ _ => ⟨by simpa using hbuffer, .inl hclosed⟩
  · exact proper_of_state? rfl (by simpa using hclosed)

theorem proper_follow (waits : Bool) (h : feed.closed = false ∨ progress = .finished) :
    Proper waits (follow waits (feed, progress)) := by
  cases progress with
  | waiting phase => exact proper_of_state? rfl (h.resolve_right fun hend => by cases hend)
  | failed error => exact proper_done fun _ h => by cases h
  | finished =>
    rw [follow, afterPoll]
    split_ifs with hbuffer hend
    · exact proper_done fun _ h => by cases h
    · refine proper_done fun hwaits _ => ⟨by simpa using hbuffer, ?_⟩
      simpa [hwaits] using hend
    · simp only [Bool.or_eq_true, not_or] at hend
      exact proper_of_state? rfl (by simpa using hend.1.2)

namespace Course

variable {course : Course}

/-- What is known of a feed at any time. -/
structure Sound (course : Course) : Prop where
  kept : Kept course.exchanges course.taken course.stage.feed
  opened : ∀ state, course.stage = .polling state → state.feed.closed = false
  nothing : course.found? = some (true, .ok false) → course.stage.feed.buffer = [] ∧
    (course.stage.feed.closed = true ∨
      course.stage.feed.disabled = true ∧ course.stage.feed.isDrained = true)

theorem sound_start (config : Config) (streamArn : String) : (start config streamArn).Sound :=
  ⟨.ofArn config streamArn, fun _ h => (by cases h), fun h => (by cases h)⟩

theorem sound_proceed {waits : Bool} {next : Next Polling Found} (hproper : Proper waits next)
    (hkept : Kept course.exchanges course.taken (Stage.ofNext next).feed) :
    (course.proceed waits next).Sound := by
  refine ⟨hkept, ?_, ?_⟩
  · cases next with
    | again state | after pause state =>
      rintro _ ⟨⟩
      exact hproper.opened state rfl
    | done found => exact fun _ h => by cases h
  · cases next with
    | again | after => exact fun h => by cases h
    | done found =>
      obtain ⟨outcome, feed⟩ := found
      intro hfound
      obtain ⟨rfl, rfl⟩ := Prod.mk.inj (Option.some.inj hfound)
      exact hproper.nothing feed rfl rfl

/-- What is known of a feed is known behind each event. -/
theorem Sound.step (h : course.Sound) (event : Event) : (course.step event).Sound := by
  obtain ⟨stage, exchanges, taken, found?⟩ := course
  have hkept : Kept exchanges taken stage.feed := h.kept
  cases stage with
  | idle feed =>
    cases event with
    | look waits =>
      refine sound_proceed (proper_look feed waits) ?_
      rw [(feed.look_cases waits).1]
      exact hkept
    | take => exact ⟨hkept.take, fun _ h => (by cases h), fun h => (by cases h)⟩
    | reply | giveUp => exact h
  | polling state =>
    cases event with
    | reply reply =>
      have hproper : Proper state.waits ((poll state).answer reply) := by
        refine proper_follow state.waits ?_
        rw [← h.opened state rfl]
        exact closed_receive state.feed state.phase reply
      refine sound_proceed hproper ?_
      have hreceive := hkept.receive (state.feed.request state.phase) reply
        ((poll state).answer reply).pause
      have hfeed : (Stage.ofNext ((poll state).answer reply)).feed =
          (state.feed.receive state.phase reply).1 := (follow_cases state.waits _ _).1
      rw [hfeed]
      exact hreceive
    | giveUp => exact ⟨hkept, fun _ h => (by cases h), fun h => (by cases h)⟩
    | look | take => exact h

theorem Sound.after (h : course.Sound) (events : List Event) : (course.after events).Sound := by
  induction events generalizing course with
  | nil => exact h
  | cons event events ih => exact ih (h.step event)

/-- A look while records are at hand is over at once. -/
theorem look_of_buffer (hidle : course.stage = .idle feed) (hbuffer : feed.buffer ≠ [])
    (waits : Bool) :
    course.step (.look waits) = { course with found? := some (waits, .ok true) } := by
  obtain ⟨stage, exchanges, taken, found?⟩ := course
  obtain rfl : stage = .idle feed := hidle
  have hlook : feed.look waits = .done (.ok true, feed) := by
    rw [look, if_pos (by simpa using hbuffer)]
  show Course.proceed _ waits (feed.look waits) = _
  rw [hlook]
  rfl

/-- A feed that is closed stays closed and sends nothing. -/
theorem closed_after (hidle : course.stage = .idle feed) (hclosed : feed.closed = true)
    (events : List Event) : ∃ later, (course.after events).stage = .idle later ∧
      later.closed = true ∧ (course.after events).exchanges = course.exchanges := by
  induction events generalizing course feed with
  | nil => exact ⟨feed, hidle, hclosed, rfl⟩
  | cons event events ih =>
    have hstep : ∃ later, (course.step event).stage = .idle later ∧ later.closed = true ∧
        (course.step event).exchanges = course.exchanges := by
      obtain ⟨stage, exchanges, taken, found?⟩ := course
      obtain rfl : stage = .idle feed := hidle
      cases event with
      | look waits =>
        have hlook : ∃ found, feed.look waits = .done (found, feed) := by
          simp only [look, hclosed, if_true]
          split_ifs <;> exact ⟨_, rfl⟩
        obtain ⟨found, hlook⟩ := hlook
        refine ⟨feed, ?_, hclosed, rfl⟩
        show Stage.ofNext (feed.look waits) = _
        rw [hlook]
        rfl
      | take =>
        refine ⟨feed.take.2, rfl, ?_, rfl⟩
        rw [take_eq]
        exact hclosed
      | reply | giveUp => exact ⟨feed, rfl, hclosed, rfl⟩
    obtain ⟨later, hidle', hclosed', hexchanges⟩ := hstep
    obtain ⟨last, hlast, hlastClosed, hsame⟩ := ih hidle' hclosed'
    exact ⟨last, hlast, hlastClosed, hsame.trans hexchanges⟩

end Course

/-- Whatever the store replies and whatever the user of a feed calls, in any order:

* the records that were taken and those at hand behind them are the records that were accepted, in
  order;
* a look while records are at hand gives that there are some, and sends nothing;
* a look that waits gives that there are none only if none are at hand, and the feed is closed, or
  the last page of the description says that the stream is disabled and each shard that was ever
  described was read to its end;
* a feed that is closed stays closed and sends nothing. -/
theorem records_kept (config : Config) (streamArn : String) (events : List Event) :
    let course := (Course.start config streamArn).after events
    let feed := course.stage.feed
    course.taken ++ feed.buffer = acceptedOf course.exchanges ∧
      (∀ waits, course.stage = .idle feed → feed.buffer ≠ [] →
        course.step (.look waits) = { course with found? := some (waits, .ok true) }) ∧
      (course.found? = some (true, .ok false) → feed.buffer = [] ∧
        (feed.closed = true ∨
          (∃ page, (pagesOf course.exchanges).getLast? = some page ∧ page.status = .disabled) ∧
            ∀ page ∈ pagesOf course.exchanges, ∀ shown ∈ page.shards,
              ∃ exchanged ∈ course.exchanges, exchanged.Finishes shown.shardId)) ∧
      (feed.closed = true → ∀ more, ∃ later, (course.after more).stage = .idle later ∧
        later.closed = true ∧ (course.after more).exchanges = course.exchanges) := by
  intro course feed
  have h : course.Sound := (Course.sound_start config streamArn).after events
  refine ⟨h.kept.accepted, fun waits hidle hbuffer => Course.look_of_buffer hidle hbuffer waits,
    fun hfound => ?_, fun hclosed more => ?_⟩
  · obtain ⟨hempty, hend⟩ := h.nothing hfound
    refine ⟨hempty, hend.imp_right fun ⟨hdisabled, hdrained⟩ => ⟨h.kept.disabled hdisabled, ?_⟩⟩
    intro page hpage shown hshown
    have hdescribed := h.kept.described page hpage shown hshown
    have hprocessed : shown.shardId ∈ feed.processed := by
      simpa using List.all_eq_true.mp hdrained shown.shardId hdescribed
    exact h.kept.processed shown.shardId hprocessed
  · cases hstage : course.stage with
    | idle idle =>
      have hidle : idle = feed := (congrArg Stage.feed hstage).symm
      exact Course.closed_after hstage (hidle ▸ hclosed) more
    | polling state =>
      have hopen := h.opened state hstage
      have hfeed : feed = state.feed := congrArg Stage.feed hstage
      rw [hfeed, hopen] at hclosed
      cases hclosed

/-- A look at a shard that is gone when its first record has come. -/
def closingLook : List Event :=
  [.look true, .reply (replyWith ((closedThenOpen 1).page 1 2 none)),
    .reply (iteratorReply (some "b0")), .reply (recordsReply ["200"] (some "b1")),
    .reply (.error (.resourceNotFound "b"))]

/-- The record is taken from the closed feed, and then there is nothing more. -/
example :
    let course := (Course.start {} "arn").after closingLook
    let later := course.after [.take, .look true]
    course.stage.feed.closed = true ∧ course.found? = some (true, .ok true) ∧
      later.taken = [insertion "200"] ∧ later.found? = some (true, .ok false) := by
  decide +kernel

/-- A disabled stream whose only shard was read to its end has nothing more. -/
example :
    let page := { (closedThenOpen 0).page 0 1 none with status := .disabled }
    let course := (Course.start {} "arn").after [.look true, .reply (replyWith page),
      .reply (iteratorReply (some "a0")), .reply (recordsReply [] none)]
    course.found? = some (true, .ok false) ∧ course.stage.feed.closed = false := by
  decide +kernel

end Feed

end TableClient
