import Mathlib
import TableClient.Proofs.Stream.Reading

/-!
# Steps of a poll

What a poll makes of each reply that a stream may give, and of replies that fail. Throughout, the
poll reads on from no further in a shard than the records it has seen there.

Results:
* `Standing.moves`: what an answer leads to.
* `Standing.falters`: what a failure leads to.
* `Moves.standing`, `Falters.standing`: where the poll stands then.
-/

namespace TableClient

open Protocol (RawRecord StreamDescription GetShardIteratorReply GetRecordsReply)

/-- The shard that is being read, if there is one. -/
def Phase.reading? : Phase → Option ShardReading
  | .describing => none
  | .resuming current _ => some current
  | .rewinding current => some current
  | .reading current _ => some current

/-- The shards of a page that are not left yet: the one that is being read and those behind it. -/
def Phase.pictures (phase : Phase) : List Shard :=
  (phase.reading?.map fun reading => reading.shard :: reading.rest).getD []

/-- One shard of one page is being read in two phases. -/
structure ShardReading.SamePlace (before after : ShardReading) : Prop where
  shard : after.shard = before.shard
  rest : after.rest = before.rest
  more : after.more = before.more

namespace Feed

variable {iterators : Iterators} {log : StreamLog} {feed feed' : Feed} {reply : Reply}
  {phase phase' : Phase} {progress : Progress} {fresh : List RawRecord} {picture : Shard}
  {pictures : List Shard} {page : StreamDescription} {first last : ℕ}

/-! ## Where a poll stands -/

/-- The last record seen is one of the stream. -/
def Recalls (log : StreamLog) (feed : Feed) : Prop :=
  ∀ position ∈ feed.lastSeen, ∃ shard ∈ log.shards, position ∈ shard.positions

/-- Descriptions of shards of the stream that were taken together, and that contain the last record
    seen only if the shard does. -/
structure Pending (log : StreamLog) (feed : Feed) (pictures : List Shard) : Prop where
  pictured : ∀ picture ∈ pictures,
    ∃ shard ∈ log.shards, picture.Pictures shard ∧ feed.Owns picture shard
  apart : pictures.Pairwise Shard.Apart

/-- The iterators that a poll holds have no more records before them than it has seen in the
    shard. -/
def Standing (iterators : Iterators) (log : StreamLog) (feed : Feed) : Phase → Prop
  | .describing => True
  | .resuming reading position =>
    Pending log feed (reading.shard :: reading.rest) ∧ feed.lastSeen = some position ∧
      reading.shard.contains position = true
  | .rewinding reading => Pending log feed (reading.shard :: reading.rest)
  | .reading reading iterator =>
    Pending log feed (reading.shard :: reading.rest) ∧
      ∃ shard ∈ log.shards, shard.id = reading.shard.id ∧
        ∃ n ≤ feed.reach shard, iterators iterator = (shard.id, n)

theorem Pending.tail (h : Pending log feed (picture :: pictures)) : Pending log feed pictures :=
  ⟨fun picture hpicture => h.pictured picture (List.mem_cons_of_mem _ hpicture), h.apart.tail⟩

/-- A description of a shard is of the shard with its id. -/
theorem Pending.of_id_eq (h : Pending log feed pictures) (hpicture : picture ∈ pictures)
    {shard : ShardLog} (hshard : shard ∈ log.shards) (hid : shard.id = picture.id) :
    picture.Pictures shard ∧ feed.Owns picture shard := by
  obtain ⟨other, hother, hpictures, howns⟩ := h.pictured picture hpicture
  obtain rfl := log.eq_of_id_eq hshard hother (hid.trans hpictures.id)
  exact ⟨hpictures, howns⟩

theorem Standing.pending (h : Standing iterators log feed phase) :
    Pending log feed phase.pictures := by
  cases phase with
  | describing => exact ⟨by simp [Phase.pictures, Phase.reading?], .nil⟩
  | resuming reading position => exact h.1
  | rewinding reading => exact h
  | reading reading iterator => exact h.1

theorem standing_openShard (iterators : Iterators) {reading : ShardReading}
    (h : Pending log feed (reading.shard :: reading.rest))
    (hprogress : feed.openShard reading = .waiting phase) :
    Standing iterators log feed phase := by
  unfold openShard at hprogress
  split at hprogress
  · rename_i position hposition
    obtain rfl := Progress.waiting.inj hprogress
    obtain ⟨hseen, hcontains⟩ := Option.filter_eq_some_iff.mp hposition
    exact ⟨h, hseen, hcontains⟩
  · obtain rfl := Progress.waiting.inj hprogress
    exact h

theorem openShard_eq_waiting (feed : Feed) (reading : ShardReading) :
    ∃ phase, feed.openShard reading = .waiting phase ∧ phase.reading? = some reading := by
  unfold openShard
  split
  · exact ⟨_, rfl, rfl⟩
  · exact ⟨_, rfl, rfl⟩

/-- Behind a shard, the poll turns to the next one, or to the next page, or it is over. -/
theorem nextShard_cases (feed : Feed) (rest : List Shard) (more : Bool) :
    (∃ reading : ShardReading, rest = reading.shard :: reading.rest ∧ reading.more = more ∧
      reading.refreshes = 0 ∧ feed.nextShard rest more = feed.openShard reading) ∨
    (rest = [] ∧ more = true ∧ feed.buffer = [] ∧ feed.nextShard rest more = .waiting .describing) ∨
    (rest = [] ∧ (more = true → feed.buffer ≠ []) ∧ feed.nextShard rest more = .finished) := by
  cases rest with
  | cons picture rest => exact .inl ⟨⟨picture, 0, rest, more⟩, rfl, rfl, rfl, rfl⟩
  | nil =>
    by_cases h : more = true ∧ feed.buffer = []
    · exact .inr (.inl ⟨rfl, h.1, h.2, by simp [nextShard, h.1, h.2]⟩)
    · refine .inr (.inr ⟨rfl, fun hmore hbuffer => h ⟨hmore, hbuffer⟩, ?_⟩)
      have : (more && feed.buffer.isEmpty) = false := by
        rw [Bool.eq_false_iff]
        simpa using h
      simp [nextShard, this]

theorem standing_nextShard (iterators : Iterators) {rest : List Shard} {more : Bool}
    (h : Pending log feed rest) (hprogress : feed.nextShard rest more = .waiting phase) :
    Standing iterators log feed phase := by
  rcases feed.nextShard_cases rest more with
    ⟨reading, rfl, -, -, hnext⟩ | ⟨rfl, -, -, hnext⟩ | ⟨rfl, -, hnext⟩
  · exact standing_openShard iterators h (hnext.symm.trans hprogress)
  · obtain rfl := Progress.waiting.inj (hnext.symm.trans hprogress)
    trivial
  · cases hnext.symm.trans hprogress

/-! ## What a page shows -/

theorem mem_shardsOf : picture ∈ feed.shardsOf page ↔
    ∃ shown ∈ page.shards, shown.shardId ∉ feed.processed ∧
      Shard.ofDescription shown = picture := by
  simp only [shardsOf, List.mem_mergeSort, List.mem_map, List.mem_filter, Bool.not_eq_true',
    List.contains_eq_mem, decide_eq_false_iff_not, and_assoc]

/-- The shards of a page that are to be read are descriptions of shards of the stream. -/
theorem pending_shardsOf (hrecalls : Recalls log feed) (hpage : log.Shows first last page) :
    Pending log feed (feed.shardsOf page) := by
  have hslice : ((log.shards.take last).drop first).Sublist log.shards :=
    (List.drop_sublist _ _).trans (List.take_sublist _ _)
  constructor
  · intro picture hpicture
    obtain ⟨shown, hshown, -, rfl⟩ := mem_shardsOf.mp hpicture
    have hmem := List.mem_map_of_mem (f := Shard.ofDescription) hshown
    rw [hpage.shards] at hmem
    obtain ⟨shard, hshard, heq⟩ := List.mem_map.mp hmem
    have hshard := hslice.subset hshard
    rw [← heq]
    refine ⟨shard, hshard, .refl shard, fun position hposition hcontains => ?_⟩
    obtain ⟨owner, howner, hmem⟩ := hrecalls position hposition
    have hcovers := (Shard.contains_iff_covers shard.decimal
      (owner.isDecimal_of_mem_positions hmem)).mp hcontains
    obtain rfl := log.eq_of_mem_positions howner hshard hmem hcovers
    exact hmem
  · have hall : (page.shards.map Shard.ofDescription).Pairwise Shard.Apart := by
      rw [hpage.shards, List.pairwise_map]
      exact log.apart.sublist hslice
    refine ((List.mergeSort_perm _ _).pairwise_iff fun h => h.symm).mpr ?_
    exact hall.sublist (List.filter_sublist.map _)

/-! ## Answers -/

/-- Records of a shard come at an iterator that stands no further than the first record not seen. -/
structure Reads (iterators : Iterators) (log : StreamLog) (feed : Feed) (reply : Reply)
    (reading : ShardReading) (iterator : String) (answer : GetRecordsReply) (shard : ShardLog)
    (n : ℕ) : Prop where
  reply : reply.as GetRecordsReply = .ok answer
  mem : shard ∈ log.shards
  pictures : reading.shard.Pictures shard
  owns : feed.Owns reading.shard shard
  iterator : iterators iterator = (shard.id, n)
  reach : n ≤ feed.reach shard
  records : answer.records <+: shard.records.drop n

/-- What an answer leads to: the records that the feed accepts, the feed then, and how far the poll
    has come. -/
inductive Moves (iterators : Iterators) (log : StreamLog) (feed : Feed) (reply : Reply) :
    Phase → List RawRecord → Feed → Progress → Prop
  /-- A page of the description comes, and its shards are to be read. -/
  | listed {page : StreamDescription} {first last : ℕ}
      (hreply : reply.as StreamDescription = .ok page)
      (hfirst : feed.lastShardId = log.cursorAt first) (hpage : log.Shows first last page) :
      Moves iterators log feed reply .describing [] (feed.learn page)
        ((feed.learn page).nextShard ((feed.learn page).shardsOf page) page.lastShardId.isSome)
  /-- An iterator comes, or none behind the last record seen. -/
  | opened {phase phase' : Phase} {reading : ShardReading} (hphase : phase.reading? = some reading)
      (hphase' : phase'.reading? = some reading) (hstanding : Standing iterators log feed phase') :
      Moves iterators log feed reply phase [] feed (.waiting phase')
  /-- There is no iterator at the start of the shard. -/
  | absent {reading : ShardReading} (hreply : reply.as GetShardIteratorReply = .ok ⟨none⟩) :
      Moves iterators log feed reply (.rewinding reading) []
        (if reading.refreshes = 0 then feed.markProcessed reading.shard else feed)
        (feed.nextShard reading.rest reading.more)
  /-- Records come, and the shard is read to its end. -/
  | drained {reading : ShardReading} {iterator : String} {answer : GetRecordsReply}
      {shard : ShardLog} {n : ℕ}
      (hreads : Reads iterators log feed reply reading iterator answer shard n)
      (hnext : answer.next = none) :
      Moves iterators log feed reply (.reading reading iterator)
        (feed.unseen shard (n + answer.records.length))
        ((feed.extend (feed.unseen shard (n + answer.records.length))).markProcessed reading.shard)
        ((feed.extend (feed.unseen shard (n + answer.records.length))).nextShard reading.rest
          reading.more)
  /-- No records come for now. -/
  | paused {reading : ShardReading} {iterator next : String} {answer : GetRecordsReply}
      {shard : ShardLog} {n : ℕ}
      (hreads : Reads iterators log feed reply reading iterator answer shard n)
      (hnext : answer.next = some next) (hrecords : answer.records = []) :
      Moves iterators log feed reply (.reading reading iterator) [] feed
        (feed.nextShard reading.rest reading.more)
  /-- Records come, and there may be more. -/
  | continued {reading : ShardReading} {iterator next : String} {answer : GetRecordsReply}
      {shard : ShardLog} {n : ℕ}
      (hreads : Reads iterators log feed reply reading iterator answer shard n)
      (hnext : answer.next = some next) (hrecords : answer.records ≠ [])
      (hiterator : iterators next = (shard.id, n + answer.records.length)) :
      Moves iterators log feed reply (.reading reading iterator)
        (feed.unseen shard (n + answer.records.length))
        (feed.extend (feed.unseen shard (n + answer.records.length)))
        (.waiting (.reading reading next))

theorem Reads.length_le {reading : ShardReading} {iterator : String} {answer : GetRecordsReply}
    {shard : ShardLog} {n : ℕ}
    (h : Reads iterators log feed reply reading iterator answer shard n) :
    n + answer.records.length ≤ shard.records.length := by
  have hlength := h.records.length_le
  have hn := h.reach.trans (feed.reach_le_length shard)
  rw [List.length_drop] at hlength
  omega

theorem Reads.foldl_accept {reading : ShardReading} {iterator : String} {answer : GetRecordsReply}
    {shard : ShardLog} {n : ℕ}
    (h : Reads iterators log feed reply reading iterator answer shard n) :
    answer.records.foldl (fun feed record => feed.accept reading.shard record) feed =
      feed.extend (feed.unseen shard (n + answer.records.length)) :=
  Feed.foldl_accept h.pictures h.owns h.records h.reach

/-- What an answer leads to. -/
theorem Standing.moves (h : Standing iterators log feed phase)
    (hanswers : log.Answers iterators (feed.request phase) reply) :
    ∃ fresh, Moves iterators log feed reply phase fresh (feed.receive phase reply).1
      (feed.receive phase reply).2 := by
  cases phase with
  | describing =>
    cases hanswers with
    | page hreply hfirst hpage =>
      refine ⟨[], ?_⟩
      simp only [receive, hreply]
      exact .listed hreply hfirst hpage
  | resuming reading position =>
    obtain ⟨hpending, hseen, hcontains⟩ := h
    cases hanswers with
    | trimHorizon hreply hstart => cases hstart
    | @afterSequenceNumber _ _ text answer shard hreply hstart htext hshard hid hiterator =>
      refine ⟨[], ?_⟩
      simp only [receive, hreply]
      obtain ⟨iterator⟩ := answer
      cases iterator with
      | none => exact .opened rfl rfl hpending
      | some iterator =>
        obtain rfl : position.text = text := Option.some.inj htext
        obtain ⟨hpictures, howns⟩ := hpending.of_id_eq List.mem_cons_self hshard hid
        have hreach := reach_of_mem hseen (howns position hseen hcontains)
        exact .opened rfl rfl
          ⟨hpending, shard, hshard, hid, _, hreach.ge, hiterator iterator rfl⟩
  | rewinding reading =>
    cases hanswers with
    | afterSequenceNumber hreply hstart => cases hstart
    | @trimHorizon _ _ answer shard hreply hstart hshard hid hiterator =>
      refine ⟨[], ?_⟩
      simp only [receive, hreply]
      obtain ⟨iterator⟩ := answer
      cases iterator with
      | none =>
        have := @Moves.absent iterators log feed reply reading hreply
        simp only [receiveRewound, leaveShard]
        split
        · rename_i hfirst
          rw [if_pos hfirst] at this
          exact this
        · rename_i hfirst
          rw [if_neg hfirst] at this
          exact this
      | some iterator =>
        exact .opened rfl rfl
          ⟨h, shard, hshard, hid, 0, Nat.zero_le _, hiterator iterator rfl⟩
  | reading reading iterator =>
    obtain ⟨hpending, owner, howner, hid, n, hn, hiterator⟩ := h
    cases hanswers with
    | @records _ _ answer shard m hreply hshard hinput hrecords hnext =>
      have hsame : (owner.id, n) = (shard.id, m) := hiterator.symm.trans hinput
      obtain rfl := log.eq_of_id_eq howner hshard (congrArg Prod.fst hsame)
      obtain rfl : n = m := congrArg Prod.snd hsame
      obtain ⟨hpictures, howns⟩ := hpending.of_id_eq List.mem_cons_self howner hid
      have hreads : Reads iterators log feed reply reading iterator answer owner n :=
        ⟨hreply, howner, hpictures, howns, hiterator, hn, hrecords⟩
      simp only [receive, hreply, receiveRecords, hreads.foldl_accept]
      cases hanswer : answer.next with
      | none => exact ⟨_, .drained hreads hanswer⟩
      | some next =>
        by_cases hempty : answer.records = []
        · refine ⟨[], ?_⟩
          have hnone : feed.unseen owner (n + answer.records.length) = [] :=
            unseen_eq_nil (by simpa [hempty] using hn)
          simp only [hempty, List.isEmpty_nil, if_true, leaveShard]
          rw [hempty] at hnone
          rw [hnone, extend_nil]
          exact .paused hreads hanswer hempty
        · have hempty' : answer.records.isEmpty = false := by simpa using hempty
          simp only [hempty']
          exact ⟨_, .continued hreads hanswer hempty (hnext next hanswer)⟩

/-! ## Failures -/

/-- What a failure leads to: the feed is closed, or the poll fails, or it asks again for an iterator
    into the same shard. -/
inductive Falters (iterators : Iterators) (log : StreamLog) (feed : Feed) :
    Phase → Feed → Progress → Prop
  | closed {phase : Phase} : Falters iterators log feed phase feed.close .finished
  | failed {phase : Phase} {error : Error} : Falters iterators log feed phase feed (.failed error)
  | reopened {phase phase' : Phase} {reading reading' : ShardReading}
      (hphase : phase.reading? = some reading) (hphase' : phase'.reading? = some reading')
      (hsame : reading.SamePlace reading') (hstanding : Standing iterators log feed phase') :
      Falters iterators log feed phase feed (.waiting phase')

/-- What a failure leads to. -/
theorem Standing.falters (h : Standing iterators log feed phase)
    (hfails : (feed.request phase).Fails reply) :
    Falters iterators log feed phase (feed.receive phase reply).1 (feed.receive phase reply).2 := by
  cases phase with
  | describing =>
    obtain ⟨cause, hcause⟩ := hfails
    simp only [receive, hcause]
    cases cause with
    | resourceNotFound => exact .closed
    | _ => exact .failed
  | resuming reading position =>
    obtain ⟨cause, hcause⟩ := hfails
    simp only [receive, hcause]
    exact .reopened rfl rfl ⟨rfl, rfl, rfl⟩ h.pending
  | rewinding reading =>
    obtain ⟨cause, hcause⟩ := hfails
    simp only [receive, hcause]
    cases cause with
    | resourceNotFound => exact .closed
    | _ => exact .failed
  | reading reading iterator =>
    obtain ⟨cause, hcause⟩ := hfails
    simp only [receive, hcause]
    cases cause with
    | resourceNotFound => exact .closed
    | expiredIterator message =>
      simp only [receiveRecords]
      split
      · let again : ShardReading := { reading with refreshes := reading.refreshes + 1 }
        have hpending : Pending log feed (again.shard :: again.rest) := h.pending
        obtain ⟨phase', hphase', hreading⟩ := feed.openShard_eq_waiting again
        have hstanding := standing_openShard iterators hpending hphase'
        simp only [again] at hphase'
        simp only [hphase']
        exact .reopened rfl hreading ⟨rfl, rfl, rfl⟩ hstanding
      · exact .failed
    | _ => exact .failed

/-! ## Standing on -/

theorem reach_congr (h : feed'.lastSeen = feed.lastSeen) (shard : ShardLog) :
    feed'.reach shard = feed.reach shard := by
  rw [reach, reach, h]

theorem Recalls.congr (h : Recalls log feed) (hseen : feed'.lastSeen = feed.lastSeen) :
    Recalls log feed' := fun position hposition => h position (hseen ▸ hposition)

theorem Pending.congr (h : Pending log feed pictures) (hseen : feed'.lastSeen = feed.lastSeen) :
    Pending log feed' pictures := by
  refine ⟨fun picture hpicture => ?_, h.apart⟩
  obtain ⟨shard, hshard, hpictures, howns⟩ := h.pictured picture hpicture
  exact ⟨shard, hshard, hpictures, fun last hlast => howns last (hseen ▸ hlast)⟩

theorem Standing.congr (h : Standing iterators log feed phase)
    (hseen : feed'.lastSeen = feed.lastSeen) : Standing iterators log feed' phase := by
  cases phase with
  | describing => trivial
  | resuming reading position => exact ⟨h.1.congr hseen, hseen.trans h.2.1, h.2.2⟩
  | rewinding reading => exact Pending.congr h hseen
  | reading reading iterator =>
    obtain ⟨hpending, shard, hshard, hid, n, hn, hiterator⟩ := h
    exact ⟨hpending.congr hseen, shard, hshard, hid, n, (reach_congr hseen shard).symm ▸ hn,
      hiterator⟩

theorem Recalls.extend {shard : ShardLog} (h : Recalls log feed) (hshard : shard ∈ log.shards)
    (hfresh : ∀ r ∈ fresh, r ∈ shard.records) : Recalls log (feed.extend fresh) := by
  intro position hposition
  rcases lastSeen_extend hposition with hbefore | ⟨record, hrecord, rfl⟩
  · exact h position hbefore
  · exact ⟨shard, hshard, ShardLog.mem_positions.mpr ⟨record, hfresh record hrecord, rfl⟩⟩

/-- After records of the shard that is being read, the other shards of the page do not contain the
    last record seen. -/
theorem Pending.extend {shard : ShardLog} (h : Pending log feed (picture :: pictures))
    (hpicture : picture.Pictures shard) (hshard : shard ∈ log.shards)
    (hfresh : ∀ r ∈ fresh, r ∈ shard.records) :
    Pending log (feed.extend fresh) (picture :: pictures) := by
  refine ⟨fun other hother => ?_, h.apart⟩
  obtain ⟨owner, howner, hpictures, howns⟩ := h.pictured other hother
  refine ⟨owner, howner, hpictures, ?_⟩
  rcases List.mem_cons.mp hother with rfl | hrest
  · obtain rfl := log.eq_of_id_eq howner hshard (hpictures.id.symm.trans hpicture.id)
    exact owns_extend hfresh howns
  · intro position hposition hcontains
    rcases lastSeen_extend hposition with hbefore | ⟨record, hmem, rfl⟩
    · exact howns position hbefore hcontains
    · have hrecord := hfresh record hmem
      have hcovers := (Shard.contains_iff_covers hpictures.decimal
        (shard.records_decimal record hrecord)).mp hcontains
      exact absurd ⟨hpicture.covers (shard.records_covered record hrecord), hcovers⟩
        ((List.pairwise_cons.mp h.apart).1 other hrest _)

/-- Where a poll stands after an answer. -/
theorem Moves.standing (h : Moves iterators log feed reply phase fresh feed' progress)
    (hrecalls : Recalls log feed) (hstanding : Standing iterators log feed phase) :
    Recalls log feed' ∧
      ∀ phase', progress = .waiting phase' → Standing iterators log feed' phase' := by
  cases h with
  | @listed page first last hreply hfirst hpage =>
    have hlearned : Recalls log (feed.learn page) := hrecalls.congr rfl
    refine ⟨hlearned, fun phase' hphase' => ?_⟩
    exact standing_nextShard iterators (pending_shardsOf hlearned hpage) hphase'
  | opened hphase hphase' hstanding' =>
    refine ⟨hrecalls, fun phase' heq => ?_⟩
    obtain rfl := Progress.waiting.inj heq
    exact hstanding'
  | @absent reading hreply =>
    have hseen : (if reading.refreshes = 0 then feed.markProcessed reading.shard
        else feed).lastSeen = feed.lastSeen := by
      split_ifs <;> rfl
    refine ⟨hrecalls.congr hseen, fun phase' hphase' => ?_⟩
    exact (standing_nextShard iterators hstanding.pending.tail hphase').congr hseen
  | @drained reading iterator answer shard n hreads hnext =>
    have hfresh : ∀ r ∈ feed.unseen shard (n + answer.records.length), r ∈ shard.records :=
      fun r => mem_of_mem_unseen
    have hpending := hstanding.pending.extend hreads.pictures hreads.mem hfresh
    refine ⟨(hrecalls.extend hreads.mem hfresh).congr rfl, fun phase' hphase' => ?_⟩
    exact (standing_nextShard iterators hpending.tail hphase').congr rfl
  | paused hreads hnext hrecords =>
    refine ⟨hrecalls, fun phase' hphase' => ?_⟩
    exact standing_nextShard iterators hstanding.pending.tail hphase'
  | @continued reading iterator next answer shard n hreads hnext hrecords hiterator =>
    have hfresh : ∀ r ∈ feed.unseen shard (n + answer.records.length), r ∈ shard.records :=
      fun r => mem_of_mem_unseen
    refine ⟨hrecalls.extend hreads.mem hfresh, fun phase' heq => ?_⟩
    obtain rfl := Progress.waiting.inj heq
    refine ⟨hstanding.pending.extend hreads.pictures hreads.mem hfresh, shard, hreads.mem,
      hreads.pictures.id.symm, _, ?_, hiterator⟩
    rw [reach_extend hreads.length_le]
    exact le_max_right _ _

/-- Where a poll stands after a failure. -/
theorem Falters.standing (h : Falters iterators log feed phase feed' progress)
    (hrecalls : Recalls log feed) :
    Recalls log feed' ∧
      ∀ phase', progress = .waiting phase' → Standing iterators log feed' phase' := by
  cases h with
  | closed => exact ⟨hrecalls.congr rfl, fun _ h => by cases h⟩
  | failed => exact ⟨hrecalls, fun _ h => by cases h⟩
  | reopened hphase hphase' hsame hstanding =>
    refine ⟨hrecalls, fun phase' heq => ?_⟩
    obtain rfl := Progress.waiting.inj heq
    exact hstanding

theorem Moves.buffer (h : Moves iterators log feed reply phase fresh feed' progress) :
    feed'.buffer = feed.buffer ++ fresh := by
  cases h with
  | listed | opened | paused => exact (List.append_nil _).symm
  | absent =>
    rw [List.append_nil]
    split_ifs <;> rfl
  | drained | continued => rfl

theorem Falters.buffer (h : Falters iterators log feed phase feed' progress) :
    feed'.buffer = feed.buffer := by
  cases h <;> rfl

end Feed

end TableClient
