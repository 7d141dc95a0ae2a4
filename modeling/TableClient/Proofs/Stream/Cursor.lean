import Mathlib
import TableClient.Proofs.Stream.Replay

/-!
# Where a description goes on

A poll asks for a page of the description, notes the place where the description goes on behind the
page, and then reads the shards of the page. So a failure while it reads them leaves it in front of
the page only if the page is the last one, or goes on where it began. Then the next poll asks for
the page again, and for an iterator into each of its shards that is not read to its end.

Results:
* `receive_reading`: what a reply leads to while a shard is read.
* `asks_of_run`: a look that succeeds asks for an iterator into every shard that it has before it.
* `resumes_iff_last_page`: when a look that failed goes on at the page where it failed.
* `skips_throttledLook`: a shard that is not described again after a failure.
-/

namespace TableClient

open Protocol (RawRecord DescribeStream StreamDescription GetShardIteratorReply GetRecordsReply)

/-! ## Transcripts -/

/-- A transcript of the exchanges with a store that may reply anything. -/
def Transcribes (exchanges : List (Request × Reply)) (request : Request) (reply : Reply)
    (exchanges' : List (Request × Reply)) : Prop :=
  exchanges' = exchanges ++ [(request, reply)]

/-- The page of a description that was asked for last, and the reply. -/
def lastDescription (exchanges : List (Request × Reply)) : Option (DescribeStream × Reply) :=
  (exchanges.filterMap fun
    | (.describeStream input, reply) => some (input, reply)
    | _ => none).getLast?

theorem lastDescription_describeStream (exchanges : List (Request × Reply))
    (input : DescribeStream) (reply : Reply) :
    lastDescription (exchanges ++ [(.describeStream input, reply)]) = some (input, reply) := by
  simp [lastDescription]

theorem lastDescription_append (exchanges : List (Request × Reply)) {request : Request}
    (reply : Reply) (h : ∀ input, request ≠ .describeStream input) :
    lastDescription (exchanges ++ [(request, reply)]) = lastDescription exchanges := by
  cases request with
  | describeStream input => exact absurd rfl (h input)
  | _ => simp [lastDescription]

/-- The shards whose iterators a poll has yet to ask for. -/
def Phase.ahead : Phase → List Shard
  | .describing => []
  | .resuming current _ => current.shard :: current.rest
  | .rewinding current => current.shard :: current.rest
  | .reading current _ => current.rest

namespace Feed

variable {feed feed' between later : Feed} {phase phase' : Phase} {progress : Progress}
  {reading : ShardReading} {picture : Shard} {reply : Reply} {waits : Bool}

/-! ## Replies while a shard is read -/

/-- What a reply leads to while a shard is read: a failure, a closed feed, another request for this
    shard, or the next shard. -/
inductive Treads (reading : ShardReading) (feed : Feed) : Progress → Prop
  | failed (error : Error) : Treads reading feed (.failed error)
  | closed (h : feed.closed = true) : Treads reading feed .finished
  | waiting {phase : Phase} {again : ShardReading} (hphase : phase.reading? = some again)
      (hsame : reading.SamePlace again) : Treads reading feed (.waiting phase)
  | left (between : Feed) : Treads reading feed (between.nextShard reading.rest reading.more)

/-- A reply while a shard is read leaves the place where the description goes on. -/
theorem receive_reading (hreading : phase.reading? = some reading)
    (hreceive : feed.receive phase reply = (feed', progress)) :
    feed'.streamArn = feed.streamArn ∧ feed'.lastShardId = feed.lastShardId ∧
      Treads reading feed' progress := by
  have hopen : ∀ (feed : Feed) (again : ShardReading), reading.SamePlace again →
      Treads reading feed (feed.openShard again) := by
    intro feed again hsame
    obtain ⟨phase, hphase, hagain⟩ := feed.openShard_eq_waiting again
    rw [hphase]
    exact .waiting hagain hsame
  cases phase with
  | describing => cases hreading
  | resuming current position =>
    obtain rfl : current = reading := Option.some.inj hreading
    simp only [receive, receiveResumed] at hreceive
    split at hreceive
    · obtain ⟨rfl, rfl⟩ := Prod.mk.inj hreceive
      exact ⟨rfl, rfl, .waiting rfl ⟨rfl, rfl, rfl⟩⟩
    · obtain ⟨rfl, rfl⟩ := Prod.mk.inj hreceive
      exact ⟨rfl, rfl, .waiting rfl ⟨rfl, rfl, rfl⟩⟩
  | rewinding current =>
    obtain rfl : current = reading := Option.some.inj hreading
    simp only [receive, receiveRewound, leaveShard] at hreceive
    split at hreceive
    · obtain ⟨rfl, rfl⟩ := Prod.mk.inj hreceive
      exact ⟨rfl, rfl, .waiting rfl ⟨rfl, rfl, rfl⟩⟩
    · obtain ⟨rfl, rfl⟩ := Prod.mk.inj hreceive
      refine ⟨?_, ?_, .left _⟩
      · split_ifs <;> rfl
      · split_ifs <;> rfl
    · obtain ⟨rfl, rfl⟩ := Prod.mk.inj hreceive
      exact ⟨rfl, rfl, .closed rfl⟩
    · obtain ⟨rfl, rfl⟩ := Prod.mk.inj hreceive
      exact ⟨rfl, rfl, .failed _⟩
  | reading current iterator =>
    obtain rfl : current = reading := Option.some.inj hreading
    simp only [receive, receiveRecords, foldl_accept_eq] at hreceive
    split at hreceive
    · split at hreceive
      · obtain ⟨rfl, rfl⟩ := Prod.mk.inj hreceive
        exact ⟨rfl, rfl, .left _⟩
      · split at hreceive
        · obtain ⟨rfl, rfl⟩ := Prod.mk.inj hreceive
          exact ⟨rfl, rfl, .left _⟩
        · obtain ⟨rfl, rfl⟩ := Prod.mk.inj hreceive
          exact ⟨rfl, rfl, .waiting rfl ⟨rfl, rfl, rfl⟩⟩
    · split at hreceive
      · obtain ⟨rfl, rfl⟩ := Prod.mk.inj hreceive
        exact ⟨rfl, rfl, hopen _ _ ⟨rfl, rfl, rfl⟩⟩
      · obtain ⟨rfl, rfl⟩ := Prod.mk.inj hreceive
        exact ⟨rfl, rfl, .failed _⟩
    · obtain ⟨rfl, rfl⟩ := Prod.mk.inj hreceive
      exact ⟨rfl, rfl, .closed rfl⟩
    · obtain ⟨rfl, rfl⟩ := Prod.mk.inj hreceive
      exact ⟨rfl, rfl, .failed _⟩

/-! ## Shards that a look has before it -/

theorem rest_subset_ahead (h : phase.reading? = some reading) : reading.rest ⊆ phase.ahead := by
  cases phase with
  | describing => cases h
  | resuming | rewinding =>
    obtain rfl := Option.some.inj h
    exact List.subset_cons_self _ _
  | reading =>
    obtain rfl := Option.some.inj h
    exact List.Subset.refl _

theorem ahead_nextShard (feed : Feed) {rest : List Shard} (more : Bool) (h : picture ∈ rest) :
    ∃ phase, feed.nextShard rest more = .waiting phase ∧ picture ∈ phase.ahead := by
  cases rest with
  | nil => cases h
  | cons shard rest =>
    simp only [nextShard, openShard]
    split
    · exact ⟨_, rfl, h⟩
    · exact ⟨_, rfl, h⟩

/-- A shard that a look has before it is asked for now or stays before it, unless the look fails or
    the feed is closed. -/
theorem ahead_step (hmem : picture ∈ phase.ahead)
    (hreceive : feed.receive phase reply = (feed', progress)) :
    (∃ input, feed.request phase = .getShardIterator input ∧ input.shardId = picture.id) ∨
      (∃ error, progress = .failed error) ∨ (progress = .finished ∧ feed'.closed = true) ∨
      ∃ phase', progress = .waiting phase' ∧ picture ∈ phase'.ahead := by
  have hrest : ∀ reading, phase.reading? = some reading → picture ∈ reading.rest →
      (∃ error, progress = .failed error) ∨ (progress = .finished ∧ feed'.closed = true) ∨
        ∃ phase', progress = .waiting phase' ∧ picture ∈ phase'.ahead := by
    intro reading hreading hpicture
    cases (receive_reading hreading hreceive).2.2 with
    | failed error => exact .inl ⟨error, rfl⟩
    | closed hclosed => exact .inr (.inl ⟨rfl, hclosed⟩)
    | waiting hphase hsame =>
      exact .inr (.inr ⟨_, rfl, rest_subset_ahead hphase (hsame.rest ▸ hpicture)⟩)
    | left between => exact .inr (.inr (between.ahead_nextShard _ hpicture))
  cases phase with
  | describing => cases hmem
  | resuming reading position =>
    rcases List.mem_cons.mp hmem with rfl | hpicture
    · exact .inl ⟨_, rfl, rfl⟩
    · exact .inr (hrest reading rfl hpicture)
  | rewinding reading =>
    rcases List.mem_cons.mp hmem with rfl | hpicture
    · exact .inl ⟨_, rfl, rfl⟩
    · exact .inr (hrest reading rfl hpicture)
  | reading reading iterator => exact .inr (hrest reading rfl hmem)

theorem follow_closed (waits : Bool) (h : feed.closed = true) :
    ∃ found, follow waits (feed, .finished) = .done (.ok found, feed) := by
  simp only [follow, afterPoll, h, Bool.or_true, Bool.true_or, if_true]
  split_ifs <;> exact ⟨_, rfl⟩

variable {S : Type} {serve : S → Request → Reply → S → Prop} {store store' : S}
  {requests : List Request}

/-- A turn of a look asks for an iterator into a shard that the look has before it, or leaves it
    before it, unless it is the last turn of a look that fails or closes the feed. -/
theorem ahead_turn {next : Next Polling Found} (hmem : picture ∈ phase.ahead)
    (h : Turn serve poll ⟨feed, phase, waits⟩ store requests next store') :
    (∃ input, .getShardIterator input ∈ requests ∧ input.shardId = picture.id) ∨
      (∃ found, next = .done found ∧ ((∃ some, found.1 = .ok some) → found.2.closed = true)) ∨
      ∃ state, next = .again state ∧ picture ∈ state.phase.ahead := by
  obtain ⟨reply, -, rfl, rfl⟩ := turn_poll h
  obtain ⟨⟨feed', progress⟩, hreceive⟩ : ∃ result, feed.receive phase reply = result := ⟨_, rfl⟩
  rw [hreceive]
  rcases ahead_step hmem hreceive with
    ⟨input, hrequest, hid⟩ | ⟨error, rfl⟩ | ⟨rfl, hclosed⟩ | ⟨phase', rfl, hmem'⟩
  · exact .inl ⟨input, List.mem_singleton.mpr hrequest.symm, hid⟩
  · exact .inr (.inl ⟨_, rfl, nofun⟩)
  · obtain ⟨_, hfollow⟩ := follow_closed waits hclosed
    exact .inr (.inl ⟨_, hfollow, fun _ => hclosed⟩)
  · exact .inr (.inr ⟨_, rfl, hmem'⟩)

/-- A look that succeeds and leaves the feed open asks for an iterator into every shard that it has
    before it. -/
theorem asks_of_run {state : Polling} {found : Found}
    (h : Run serve poll state store requests found store') (hok : ∃ some, found.1 = .ok some)
    (hopen : found.2.closed = false) (hmem : picture ∈ state.phase.ahead) :
    ∃ input, .getShardIterator input ∈ requests ∧ input.shardId = picture.id := by
  induction h with
  | @last state _ _ requests found hturn =>
    obtain ⟨feed, phase, waits⟩ := state
    rcases ahead_turn hmem hturn with hasked | ⟨other, hdone, hclosed⟩ | ⟨state', hagain, -⟩
    · exact hasked
    · obtain rfl := Next.done.inj hdone
      exact absurd ((hclosed hok).symm.trans hopen) nofun
    · cases hagain
  | @turn state state' _ _ _ requests more next found hturn hstate hrun ih =>
    obtain ⟨feed, phase, waits⟩ := state
    rcases ahead_turn hmem hturn with ⟨input, hinput, hid⟩ | ⟨other, rfl, -⟩ | ⟨_, rfl, hmem'⟩
    · exact ⟨input, List.mem_append_left _ hinput, hid⟩
    · cases hstate
    · obtain rfl := Option.some.inj hstate
      obtain ⟨input, hinput, hid⟩ := ih hok hopen hmem'
      exact ⟨input, List.mem_append_right _ hinput, hid⟩

/-! ## The page that was asked for last -/

variable {exchanges exchanges' : List (Request × Reply)}

/-- Where the description goes on behind a page: where the page says, or else where it began. -/
def cursorBehind (input : DescribeStream) (reply : Reply) : Option String :=
  match reply.as StreamDescription with
  | .ok page => page.lastShardId <|> input.startShardId
  | .error _ => input.startShardId

/-- The feed goes on behind the page that was asked for last. -/
def GoesOn (exchanges : List (Request × Reply)) (feed : Feed) : Prop :=
  ∃ input reply, lastDescription exchanges = some (input, reply) ∧
    feed.streamArn = input.streamArn ∧ feed.lastShardId = cursorBehind input reply

theorem receive_describing
    (hreceive : feed.receive .describing reply = (feed', progress)) :
    feed'.streamArn = feed.streamArn ∧
      feed'.lastShardId = cursorBehind ⟨feed.streamArn, feed.lastShardId⟩ reply := by
  simp only [receive] at hreceive
  cases hreply : reply.as StreamDescription with
  | ok page =>
    rw [hreply] at hreceive
    obtain ⟨rfl, -⟩ := Prod.mk.inj hreceive
    exact ⟨rfl, by simp only [cursorBehind, hreply, learn]⟩
  | error cause =>
    rw [hreply] at hreceive
    simp only [cursorBehind, hreply]
    cases cause with
    | resourceNotFound =>
      obtain ⟨rfl, -⟩ := Prod.mk.inj hreceive
      exact ⟨rfl, rfl⟩
    | _ =>
      obtain ⟨rfl, -⟩ := Prod.mk.inj hreceive
      exact ⟨rfl, rfl⟩

theorem GoesOn.receive (h : phase = .describing ∨ GoesOn exchanges feed)
    (hreceive : feed.receive phase reply = (feed', progress)) :
    GoesOn (exchanges ++ [(feed.request phase, reply)]) feed' := by
  cases hreading : phase.reading? with
  | none =>
    obtain rfl : phase = .describing := by
      cases phase with
      | describing => rfl
      | _ => cases hreading
    obtain ⟨harn, hcursor⟩ := receive_describing hreceive
    exact ⟨_, _, lastDescription_describeStream exchanges _ reply, harn, hcursor⟩
  | some reading =>
    obtain ⟨harn, hcursor, -⟩ := receive_reading hreading hreceive
    have hphase : phase ≠ .describing := by
      rintro rfl
      cases hreading
    have hrequest : ∀ input, feed.request phase ≠ .describeStream input := by
      cases phase with
      | describing => exact absurd rfl hphase
      | _ => exact nofun
    obtain ⟨input, answer, hlast, harn', hcursor'⟩ := h.resolve_left hphase
    refine ⟨input, answer, ?_, harn.trans harn', hcursor.trans hcursor'⟩
    rw [lastDescription_append _ _ hrequest, hlast]

/-- After a turn of a look, the feed goes on behind the page that was asked for last. -/
theorem GoesOn.turn {state : Polling} {next : Next Polling Found}
    (h : state.phase = .describing ∨ GoesOn exchanges state.feed)
    (hturn : Turn Transcribes poll state exchanges requests next exchanges') :
    GoesOn exchanges' (Stage.ofNext next).feed := by
  obtain ⟨feed, phase, waits⟩ := state
  obtain ⟨reply, rfl, -, rfl⟩ := turn_poll hturn
  rw [(follow_cases waits _ _).1]
  exact GoesOn.receive h rfl

/-- After a look, the feed goes on behind the page that was asked for last. -/
theorem goesOn_of_run {found : Found}
    (h : Run Transcribes poll ⟨feed, .describing, waits⟩ exchanges requests found exchanges') :
    GoesOn exchanges' found.2 := by
  refine @Run.preserves _ _ _ Transcribes poll
    (fun _ state exchanges => state.phase = .describing ∨ GoesOn exchanges state.feed)
    (fun _ found exchanges => GoesOn exchanges found.2) ?_ ?_ [] _ _ (.inl rfl) _ _ _ h
  · intro sent state exchanges requests next exchanges' state' hstate hstep hnext
    have hgoesOn := GoesOn.turn hstate hstep
    rw [ofNext_of_state? hnext] at hgoesOn
    exact .inr hgoesOn
  · intro sent state exchanges requests found exchanges' hstate hstep
    exact GoesOn.turn hstate hstep

theorem prefix_of_turn {state : Polling} {next : Next Polling Found}
    (h : Turn Transcribes poll state exchanges requests next exchanges') :
    exchanges <+: exchanges' := by
  obtain ⟨reply, rfl, -⟩ := turn_poll h
  exact List.prefix_append _ _

theorem prefix_of_run {state : Polling} {found : Found}
    (h : Run Transcribes poll state exchanges requests found exchanges') :
    exchanges <+: exchanges' := by
  induction h with
  | last hturn => exact prefix_of_turn hturn
  | turn hturn _ _ ih => exact (prefix_of_turn hturn).trans ih

/-- A look that gets a page and succeeds asks for an iterator into each shard of the page that was
    not read to its end. -/
theorem asks_of_page {input : DescribeStream} {more : List (Request × Reply)} {found : Found}
    (h : Run Transcribes poll ⟨feed, .describing, waits⟩ [] requests found
      ((.describeStream input, reply) :: more)) (hok : ∃ some, found.1 = .ok some)
    (hopen : found.2.closed = false) {page : StreamDescription}
    (hpage : reply.as StreamDescription = .ok page) {shown : Protocol.ShardDescription}
    (hshown : shown ∈ page.shards) (hunread : shown.shardId ∉ feed.processed) :
    ∃ input, .getShardIterator input ∈ requests ∧ input.shardId = shown.shardId := by
  have hshard : Shard.ofDescription shown ∈ (feed.learn page).shardsOf page :=
    mem_shardsOf.mpr ⟨shown, hshown, hunread, rfl⟩
  obtain ⟨phase', hnext, hahead⟩ :=
    (feed.learn page).ahead_nextShard page.lastShardId.isSome hshard
  -- The first reply is the page, so the shard is before the look then.
  have hturn : ∀ {exchanges requests next},
      Turn Transcribes poll ⟨feed, .describing, waits⟩ [] requests next exchanges →
      exchanges <+: (.describeStream input, reply) :: more →
      next = .again ⟨feed.learn page, phase', waits⟩ := by
    intro exchanges requests next hstep hprefix
    obtain ⟨reply', rfl, -, rfl⟩ := turn_poll hstep
    obtain ⟨hsame, -⟩ := List.cons_prefix_cons.mp hprefix
    obtain rfl : reply' = reply := congrArg Prod.snd hsame
    simp only [receive, hpage, receiveDescription, hnext, follow]
  cases h with
  | last hstep => cases hturn hstep (List.prefix_refl _)
  | turn hstep hstate hrun =>
    obtain rfl := hturn hstep (prefix_of_run hrun)
    obtain rfl := Option.some.inj hstate
    obtain ⟨input, hinput, hid⟩ := asks_of_run hrun hok hopen hahead
    exact ⟨input, List.mem_append_right _ hinput, hid⟩

/-- After a look, whether it failed or not, the feed asks again for the page that it asked for last
    exactly if it got none, or one that names no other place to go on from. Then a later look that
    gets the page again and succeeds asks for an iterator into each shard of the page that was not
    read to its end. -/
theorem resumes_iff_last_page {found : Found}
    (h : Run Transcribes poll ⟨feed, .describing, waits⟩ [] requests found exchanges) :
    ∃ input reply, lastDescription exchanges = some (input, reply) ∧
      (found.2.request .describing = .describeStream input ↔
        ∀ page, reply.as StreamDescription = .ok page →
          page.lastShardId = none ∨ page.lastShardId = input.startShardId) ∧
      ∀ page, reply.as StreamDescription = .ok page →
        ∀ shown ∈ page.shards, shown.shardId ∉ found.2.processed →
          ∀ {waits requests found' more},
            Run Transcribes poll ⟨{ found.2 with buffer := [] }, .describing, waits⟩ [] requests
              found' ((.describeStream input, reply) :: more) →
            (∃ some, found'.1 = .ok some) → found'.2.closed = false →
              ∃ input, .getShardIterator input ∈ requests ∧ input.shardId = shown.shardId := by
  obtain ⟨input, reply, hlast, harn, hcursor⟩ := goesOn_of_run h
  refine ⟨input, reply, hlast, ?_, ?_⟩
  · have hrequest : found.2.request .describing = .describeStream input ↔
        cursorBehind input reply = input.startShardId := by
      obtain ⟨arn, start⟩ := input
      simp only [request, Request.describeStream.injEq, DescribeStream.mk.injEq, hcursor]
      exact and_iff_right harn
    rw [hrequest, cursorBehind]
    cases hreply : reply.as StreamDescription with
    | error cause => simp
    | ok page =>
      cases hpage : page.lastShardId with
      | none => simp [hpage]
      | some id => simp [hpage]
  · intro page hpage shown hshown hunread waits' requests' found' more hrun hok hopen
    exact asks_of_page hrun hok hopen hpage hshown hunread

/-! ## A page that is the last one, and one that is not -/

theorem serves_transcribes (exchanges more : List (Request × Reply)) :
    Serves Transcribes exchanges more (exchanges ++ more) := by
  induction more generalizing exchanges with
  | nil => exact List.append_nil _
  | cons exchange more ih =>
    refine ⟨exchanges ++ [exchange], rfl, ?_⟩
    have := ih (exchanges ++ [exchange])
    rwa [List.append_assoc] at this

/-- A page with the closed shard only. -/
def closedPage (lastShardId : Option String) : StreamDescription where
  shards := [earlierShard.description]
  lastShardId

/-- A failure for which a request can be sent again. -/
def throttled : TransportError := .service "Throttled" "slow down"

/-- A look that gets the page but no iterator into the shard. -/
def throttledLook (lastShardId : Option String) : List (Request × Reply) :=
  [(pageBehind none, replyWith (closedPage lastShardId)), (startOf "a", .error throttled)]

/-- The feed after that look. -/
def throttledFeed (lastShardId : Option String) : Feed :=
  { ofArn {} "arn" with described := ["a"], lastShardId }

/-- The same look when nothing fails. -/
def unthrottledLook : List (Request × Reply) :=
  [(pageBehind none, replyWith (closedPage none)), (startOf "a", iteratorReply (some "a0")),
    (recordsAt "a0", recordsReply ["100"] none)]

/-- The last page is asked for again after the failure, and then the shard is read. -/
theorem resumes_throttledLook :
    Run Transcribes poll ⟨ofArn {} "arn", .describing, false⟩ [] [pageBehind none, startOf "a"]
      (.error (.transport .getShardIterator throttled), throttledFeed none) (throttledLook none) ∧
    (throttledFeed none).request .describing = pageBehind none ∧
    ∃ input, .getShardIterator input ∈ unthrottledLook.map Prod.fst ∧ input.shardId = "a" := by
  let after : Feed := { throttledFeed none with
    buffer := [insertion "100"], processed := ["a"], lastSeen := some ⟨"100"⟩ }
  have hfailed : replay ((ofArn {} "arn").look false) (throttledLook none) =
      some (.error (.transport .getShardIterator throttled), throttledFeed none) := by
    decide +kernel
  have hlater : replay ((throttledFeed none).look false) unthrottledLook =
      some (.ok true, after) := by decide +kernel
  have hrun := run_of_replay hfailed rfl (serves_transcribes [] (throttledLook none))
  have hagain := run_of_replay hlater rfl (serves_transcribes [] unthrottledLook)
  obtain ⟨input, reply, hlast, hcursor, hasks⟩ := resumes_iff_last_page hrun
  obtain ⟨rfl, rfl⟩ := Prod.mk.inj (Option.some.inj hlast)
  refine ⟨hrun, hcursor.mpr fun page hpage => .inl ?_, ?_⟩
  · obtain rfl := Except.ok.inj hpage
    rfl
  · exact hasks (closedPage none) rfl _ List.mem_cons_self (by decide) hagain ⟨_, rfl⟩ rfl

/-- A page that is not the last one is not asked for again after the failure, and its shard is not
    read: the next look finds nothing. -/
theorem skips_throttledLook :
    Run Transcribes poll ⟨ofArn {} "arn", .describing, false⟩ [] [pageBehind none, startOf "a"]
      (.error (.transport .getShardIterator throttled), throttledFeed (some "a"))
      (throttledLook (some "a")) ∧
    (throttledFeed (some "a")).request .describing = pageBehind (some "a") ∧
    "a" ∉ (throttledFeed (some "a")).processed ∧
    Run Transcribes poll ⟨throttledFeed (some "a"), .describing, false⟩ [] [pageBehind (some "a")]
      (.ok false, throttledFeed (some "a"))
      [(pageBehind (some "a"), replyWith ({} : StreamDescription))] := by
  have hfailed : replay ((ofArn {} "arn").look false) (throttledLook (some "a")) =
      some (.error (.transport .getShardIterator throttled), throttledFeed (some "a")) := by
    decide +kernel
  have hlater : replay ((throttledFeed (some "a")).look false)
      [(pageBehind (some "a"), replyWith ({} : StreamDescription))] =
      some (.ok false, throttledFeed (some "a")) := by decide +kernel
  exact ⟨run_of_replay hfailed rfl (serves_transcribes [] _), rfl, by decide,
    run_of_replay hlater rfl (serves_transcribes [] _)⟩

end Feed

end TableClient
