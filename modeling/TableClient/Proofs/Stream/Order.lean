import Mathlib
import TableClient.Proofs.Stream.Replay

/-!
# The order of the records of a stream

The shards of a page are read in the order of their starts, and the records of a shard in their
order. But a feed knows only the last record it has seen. When it leaves a shard that it has not
read to its end and sees a record of a later shard, it reads the first shard from its start again.
So the records come in order, each once, as long as a shard is left before its end only if no later
shard has records.

Results:
* `Ahead.read`: reading a shard keeps the order.
* `Ordered.moves`, `Ordered.falters`: what every reply preserves.
* `delivered_increasing`: the records that were delivered are in order, and none came twice.
* `delivered_leavingLook`: a record that comes twice.
-/

namespace TableClient

open Protocol (RawRecord StreamDescription GetShardIteratorReply GetRecordsReply)

/-! ## Streams on one page -/

/-- A reply that describes a stream describes it on one page. -/
def Request.OnePage : Request → Reply → Prop
  | .describeStream _, reply =>
    ∀ page, reply.as StreamDescription = .ok page → page.lastShardId = none
  | _, _ => True

/-- A shard without records, or with no records in the shards that start later. -/
def StreamLog.Last (log : StreamLog) (shard : ShardLog) : Prop :=
  shard.records = [] ∨
    ∀ other ∈ log.shards, other.records ≠ [] → other.start.value ≤ shard.start.value

/-- A reply makes a feed leave a shard before its end only if it is a last one: it has no iterator
    at the start of the shard, or no records but an iterator. -/
def StreamLog.LeavesLast (iterators : Iterators) (log : StreamLog) : Request → Reply → Prop
  | .getShardIterator input, reply =>
    input.start = .trimHorizon → reply.as GetShardIteratorReply = .ok ⟨none⟩ →
      ∀ shard ∈ log.shards, shard.id = input.shardId → log.Last shard
  | .getRecords input, reply =>
    ∀ next, reply.as GetRecordsReply = .ok ⟨[], some next⟩ →
      ∀ shard ∈ log.shards, ∀ n, iterators input.iterator = (shard.id, n) → log.Last shard
  | _, _ => True

namespace Feed

variable {serve : StreamLog → Request → Reply → Prop} {iterators : Iterators} {log : StreamLog}
  {feed feed' : Feed} {reply : Reply} {phase phase' : Phase} {phase? : Option Phase}
  {progress : Progress} {fresh accepted : List RawRecord} {live live' : ShardLog → Prop}
  {shard : ShardLog} {page : StreamDescription} {first last m : ℕ}

/-! ## The order of records -/

/-- The records accepted are in order, and the records of the shards that may still be read that
    were not seen come behind them. -/
structure Ahead (log : StreamLog) (accepted : List RawRecord) (feed : Feed)
    (live : ShardLog → Prop) : Prop where
  increasing : accepted.Pairwise fun a b => a.number < b.number
  bounded : ∀ record ∈ accepted, ∃ seen ∈ feed.lastSeen, record.number ≤ seen.value
  ahead : ∀ shard ∈ log.shards, live shard → ∀ record ∈ shard.records.drop (feed.reach shard),
    ∀ seen ∈ feed.lastSeen, seen.value < record.number

theorem Ahead.mono (h : Ahead log accepted feed live)
    (hlive : ∀ shard ∈ log.shards, live' shard → live shard) : Ahead log accepted feed live' :=
  ⟨h.increasing, h.bounded, fun shard hshard hshardLive =>
    h.ahead shard hshard (hlive shard hshard hshardLive)⟩

theorem Ahead.congr (h : Ahead log accepted feed live) (hseen : feed'.lastSeen = feed.lastSeen) :
    Ahead log accepted feed' live := by
  refine ⟨h.increasing, fun record hrecord => hseen ▸ h.bounded record hrecord, ?_⟩
  intro shard hshard hlive record hrecord seen hmem
  rw [reach_congr hseen] at hrecord
  exact h.ahead shard hshard hlive record hrecord seen (hseen ▸ hmem)

theorem pairwise_unseen (feed : Feed) (shard : ShardLog) (m : ℕ) :
    (feed.unseen shard m).Pairwise fun a b => a.number < b.number :=
  shard.increasing.sublist ((List.drop_sublist _ _).trans (List.take_sublist _ _))

theorem mem_drop_of_mem_unseen {record : RawRecord} (h : record ∈ feed.unseen shard m) :
    record ∈ shard.records.drop (feed.reach shard) := by
  rw [unseen, List.drop_take] at h
  exact List.mem_of_mem_take h

/-- Reading a shard keeps the order, if the other shards that may still be read start no earlier. -/
theorem Ahead.read (h : Ahead log accepted feed live) (hshard : shard ∈ log.shards)
    (hlive : live shard)
    (hlater : ∀ other ∈ log.shards, live other → other ≠ shard → other.records ≠ [] →
      shard.records ≠ [] → shard.start.value ≤ other.start.value)
    (hm : m ≤ shard.records.length) :
    Ahead log (accepted ++ feed.unseen shard m) (feed.extend (feed.unseen shard m)) live := by
  rcases List.eq_nil_or_concat' (feed.unseen shard m) with hnone | ⟨front, final, hfresh⟩
  · rw [hnone, extend_nil, List.append_nil]
    exact h
  have hlast : final ∈ feed.unseen shard m := by simp [hfresh]
  have hfinal : final ∈ shard.records := mem_of_mem_unseen hlast
  have hseen : (feed.extend (feed.unseen shard m)).lastSeen = some final.position := by
    simp [extend, hfresh]
  have hincreasing : (accepted ++ feed.unseen shard m).Pairwise fun a b => a.number < b.number := by
    refine List.pairwise_append.mpr ⟨h.increasing, feed.pairwise_unseen shard m, ?_⟩
    intro a ha b hb
    obtain ⟨seen, hmem, hle⟩ := h.bounded a ha
    exact hle.trans_lt (h.ahead shard hshard hlive b (mem_drop_of_mem_unseen hb) seen hmem)
  refine ⟨hincreasing, fun record hrecord => ⟨_, hseen, ?_⟩, ?_⟩
  · rw [hfresh, ← List.append_assoc] at hincreasing hrecord
    rcases List.mem_append.mp hrecord with hbefore | hsame
    · exact ((List.pairwise_append.mp hincreasing).2.2 record hbefore final (by simp)).le
    · exact List.mem_singleton.mp hsame ▸ le_rfl
  · intro other hother hotherLive record hrecord seen hmem
    obtain rfl : final.position = seen := Option.some.inj (hseen.symm.trans hmem)
    by_cases hsame : other = shard
    · subst hsame
      rw [reach_extend hm] at hrecord
      have hbefore : final ∈ other.records.take (max (feed.reach other) m) := by
        rw [← take_append_unseen]
        exact List.mem_append_right _ hlast
      have hsplit := other.increasing
      rw [← List.take_append_drop (max (feed.reach other) m) other.records] at hsplit
      exact (List.pairwise_append.mp hsplit).2.2 final hbefore record hrecord
    · rw [reach_extend_other hshard hother hsame (by simp [hfresh]) fun r => mem_of_mem_unseen,
        List.drop_zero] at hrecord
      exact log.number_lt_of_start_le hshard hother (Ne.symm hsame)
        (hlater other hother hotherLive hsame (List.ne_nil_of_mem hrecord)
          (List.ne_nil_of_mem hfinal)) hfinal hrecord

/-! ## The order of shards -/

/-- Sorting shards with decimal ranges by their starts puts these in the order of their numbers. -/
theorem pairwise_mergeSort_start {pictures : List Shard} (h : ∀ p ∈ pictures, p.Decimal) :
    (pictures.mergeSort fun a b => a.start.le b.start).Pairwise
      fun a b => a.start.value ≤ b.start.value := by
  have hle : ∀ a ∈ pictures, ∀ b ∈ pictures,
      a.start.le b.start = decide (a.start.value ≤ b.start.value) := by
    intro a ha b hb
    rw [Bool.eq_iff_iff, decide_eq_true_eq]
    exact SequenceNumber.le_iff_value_le (h a ha).start (h b hb).start
  have hsorted := @List.pairwise_mergeSort ℕ (fun m n => decide (m ≤ n))
    (fun a b c hab hbc => decide_eq_true ((of_decide_eq_true hab).trans (of_decide_eq_true hbc)))
    (fun a b => by simpa using le_total a b) (pictures.map fun picture => picture.start.value)
  rw [← @List.map_mergeSort Shard ℕ (fun a b => a.start.le b.start) _ _ _ hle,
    List.pairwise_map] at hsorted
  exact hsorted.imp of_decide_eq_true

/-- The shards of a page are read in the order of their starts. -/
theorem pairwise_shardsOf (hpage : log.Shows first last page) :
    (feed.shardsOf page).Pairwise fun a b => a.start.value ≤ b.start.value := by
  refine pairwise_mergeSort_start fun picture hpicture => ?_
  have hmem := (List.filter_sublist.map Shard.ofDescription).subset hpicture
  rw [hpage.shards] at hmem
  obtain ⟨shard, -, rfl⟩ := List.mem_map.mp hmem
  exact shard.decimal

/-- The shards that a feed may still read: those it has not read to their end, and those of the page
    that are not left yet. -/
def Live (feed : Feed) (phase? : Option Phase) (shard : ShardLog) : Prop :=
  shard.id ∉ feed.processed ∨ ∃ picture ∈ picturesOf phase?, picture.id = shard.id

/-! ## What every reply preserves -/

/-- The description goes on from its beginning, and the records accepted are in order. The shards of
    the page that are not left yet are in order, and those that were left before their end are last
    ones. -/
structure Ordered (log : StreamLog) (accepted : List RawRecord) (feed : Feed)
    (phase? : Option Phase) : Prop where
  cursor : feed.lastShardId = none
  ahead : Ahead log accepted feed (Live feed phase?)
  sorted : (picturesOf phase?).Pairwise fun a b => a.start.value ≤ b.start.value
  left : picturesOf phase? ≠ [] → ∀ shard ∈ log.shards, shard.id ∉ feed.processed →
    (∃ picture ∈ picturesOf phase?, picture.id = shard.id) ∨ log.Last shard

/-- The shards that may still be read start no earlier than the one that is being read. -/
theorem Ordered.start_le {reading : ShardReading} (h : Ordered log accepted feed (some phase))
    (hplaced : Placed iterators log feed (some phase)) (hreading : phase.reading? = some reading)
    (hshard : shard ∈ log.shards) (hpictures : reading.shard.Pictures shard)
    (hrecords : shard.records ≠ []) {other : ShardLog} (hother : other ∈ log.shards)
    (hlive : Live feed (some phase) other) (hotherRecords : other.records ≠ []) :
    shard.start.value ≤ other.start.value := by
  have hpage := picturesOf_reading hreading
  have hpending : Pending log feed (picturesOf (some phase)) := (hplaced.standing phase rfl).pending
  have hpictured : ∀ picture ∈ picturesOf (some phase), picture.id = other.id →
      shard.start.value ≤ other.start.value := by
    intro picture hpicture hid
    have hstart := (hpending.of_id_eq hpicture hother hid.symm).1.start
    rw [← hstart, ← hpictures.start]
    have hsorted := h.sorted
    rw [hpage] at hpicture hsorted
    rcases List.mem_cons.mp hpicture with rfl | hrest
    · exact le_rfl
    · exact (List.pairwise_cons.mp hsorted).1 picture hrest
  rcases hlive with hunread | ⟨picture, hpicture, hid⟩
  · rcases h.left (by simp [hpage]) other hother hunread with ⟨picture, hpicture, hid⟩ | hlast
    · exact hpictured picture hpicture hid
    · exact hlast.resolve_left hotherRecords shard hshard hrecords
  · exact hpictured picture hpicture hid

/-- Reading the shard in turn keeps the order. -/
theorem Ordered.read {reading : ShardReading} (h : Ordered log accepted feed (some phase))
    (hplaced : Placed iterators log feed (some phase)) (hreading : phase.reading? = some reading)
    (hshard : shard ∈ log.shards) (hpictures : reading.shard.Pictures shard)
    (hm : m ≤ shard.records.length) :
    Ahead log (accepted ++ feed.unseen shard m) (feed.extend (feed.unseen shard m))
      (Live feed (some phase)) := by
  have hlive : Live feed (some phase) shard :=
    .inr ⟨reading.shard, by simp [picturesOf_reading hreading], hpictures.id⟩
  exact h.ahead.read hshard hlive (fun other hother hotherLive _ hotherRecords hrecords =>
    h.start_le hplaced hreading hshard hpictures hrecords hother hotherLive hotherRecords) hm

/-- A poll that reads on in a shard. -/
theorem Ordered.stay (h : Ordered log accepted feed (some phase))
    (hpictures : picturesOf (some phase') = picturesOf (some phase))
    {accepted' : List RawRecord} (hahead : Ahead log accepted' feed' (Live feed (some phase)))
    (hprocessed : feed'.processed = feed.processed)
    (hcursor : feed'.lastShardId = feed.lastShardId) :
    Ordered log accepted' feed' (some phase') where
  cursor := hcursor.trans h.cursor
  ahead := hahead.mono fun shard _ hlive => by
    rwa [Live, hprocessed, hpictures] at hlive
  sorted := hpictures ▸ h.sorted
  left := by
    rw [hpictures, hprocessed]
    exact h.left

/-- A poll that leaves a shard, which was read to its end or is a last one. -/
theorem Ordered.leave {reading : ShardReading} {between : Feed}
    (h : Ordered log accepted feed (some phase)) (hreading : phase.reading? = some reading)
    {accepted' : List RawRecord} (hahead : Ahead log accepted' feed' (Live feed (some phase)))
    (hprocessed : feed.processed ⊆ feed'.processed)
    (hcursor : feed'.lastShardId = feed.lastShardId)
    (hleft : ∀ shard ∈ log.shards, shard.id = reading.shard.id → shard.id ∉ feed'.processed →
      log.Last shard) :
    Ordered log accepted' feed' (between.nextShard reading.rest reading.more).phase? := by
  have hpage := picturesOf_reading hreading
  have hsorted := h.sorted
  rw [hpage] at hsorted
  refine ⟨hcursor.trans h.cursor, hahead.mono fun shard _ hlive => ?_, ?_, fun _ => ?_⟩
  · rw [Live, picturesOf_nextShard] at hlive
    refine hlive.imp (fun hunread hmem => hunread (hprocessed hmem)) ?_
    rintro ⟨picture, hpicture, hid⟩
    exact ⟨picture, hpage ▸ List.mem_cons_of_mem _ hpicture, hid⟩
  · rw [picturesOf_nextShard]
    exact hsorted.tail
  · intro shard hshard hunread
    rw [picturesOf_nextShard]
    have hbefore := h.left (by simp [hpage]) shard hshard fun hmem => hunread (hprocessed hmem)
    rcases hbefore with ⟨picture, hpicture, hid⟩ | hlast
    · rw [hpage] at hpicture
      rcases List.mem_cons.mp hpicture with rfl | hrest
      · exact .inr (hleft shard hshard hid.symm hunread)
      · exact .inl ⟨picture, hrest, hid⟩
    · exact .inr hlast

/-- A poll that gets the page of the description. -/
theorem Ordered.listed (h : Ordered log accepted feed (some .describing))
    (hfirst : feed.lastShardId = log.cursorAt first) (hpage : log.Shows first last page)
    (hone : page.lastShardId = none) :
    Ordered log accepted (feed.learn page)
      ((feed.learn page).nextShard ((feed.learn page).shardsOf page)
        page.lastShardId.isSome).phase? := by
  obtain rfl : 0 = first := log.cursorAt_inj (Nat.zero_le _) (hpage.first_le.trans hpage.last_le)
    (h.cursor.symm.trans hfirst)
  have hlast : last = log.shards.length := (hpage.cursor.resolve_right fun h => h.1 hone).2
  have hshards := hpage.shards
  rw [hlast, List.take_length, List.drop_zero] at hshards
  refine ⟨?_, ?_, ?_, fun _ shard hshard hunread => .inl ?_⟩
  · simp [learn, hone, h.cursor]
  · have hahead : Ahead log accepted (feed.learn page) (Live feed (some .describing)) :=
      h.ahead.congr rfl
    refine hahead.mono fun shard hshard hlive => .inl ?_
    rcases hlive with hunread | ⟨picture, hpicture, hid⟩
    · exact hunread
    · rw [picturesOf_nextShard] at hpicture
      obtain ⟨shown, -, hunread, rfl⟩ := mem_shardsOf.mp hpicture
      rw [← hid]
      exact hunread
  · rw [picturesOf_nextShard]
    exact pairwise_shardsOf hpage
  · have hmem : shard.toShard ∈ page.shards.map Shard.ofDescription :=
      hshards ▸ List.mem_map_of_mem hshard
    obtain ⟨shown, hshown, heq⟩ := List.mem_map.mp hmem
    have hid : shown.shardId = shard.id := congrArg Shard.id heq
    rw [picturesOf_nextShard]
    exact ⟨_, mem_shardsOf.mpr ⟨shown, hshown, hid ▸ hunread, rfl⟩, hid⟩

/-- What every answer preserves. -/
theorem Ordered.moves (h : Ordered log accepted feed (some phase))
    (hplaced : Placed iterators log feed (some phase))
    (hmoves : Moves iterators log feed reply phase fresh feed' progress)
    (hone : (feed.request phase).OnePage reply)
    (hleaves : log.LeavesLast iterators (feed.request phase) reply) :
    Ordered log (accepted ++ fresh) feed' progress.phase? := by
  cases hmoves with
  | @listed page first last hreply hfirst hpage =>
    rw [List.append_nil]
    exact h.listed hfirst hpage (hone page hreply)
  | opened hphase hphase' =>
    rw [List.append_nil]
    exact h.stay (picturesOf_congr (hphase'.trans hphase.symm)) h.ahead rfl rfl
  | @absent reading hreply =>
    rw [List.append_nil]
    refine h.leave rfl (h.ahead.congr ?_) ?_ ?_ fun shard hshard hid _ =>
      hleaves rfl hreply shard hshard hid
    · split_ifs <;> rfl
    · split_ifs
      · exact fun name hname => mem_mark.mpr (.inl hname)
      · exact List.Subset.refl _
    · split_ifs <;> rfl
  | @drained reading iterator answer shard n hreads hnext =>
    refine h.leave rfl ((h.read hplaced rfl hreads.mem hreads.pictures hreads.length_le).congr rfl)
      (fun name hname => mem_mark.mpr (.inl hname)) rfl fun other hother hid hunread => ?_
    exact absurd (mem_mark.mpr (.inr hid)) hunread
  | @paused reading iterator next answer shard n hreads hnext hrecords =>
    rw [List.append_nil]
    refine h.leave rfl h.ahead (List.Subset.refl _) rfl fun other hother hid _ => ?_
    obtain rfl := log.eq_of_id_eq hother hreads.mem (hid.trans hreads.pictures.id)
    have hreply := hreads.reply
    obtain ⟨records, next'⟩ := answer
    subst hnext hrecords
    exact hleaves next hreply other hother n hreads.iterator
  | @continued reading iterator next answer shard n hreads =>
    have hpictures : picturesOf (some (.reading reading next)) =
        picturesOf (some (.reading reading iterator)) := picturesOf_congr rfl
    exact h.stay hpictures
      (h.read hplaced rfl hreads.mem hreads.pictures hreads.length_le) rfl rfl

/-- What every failure preserves. -/
theorem Ordered.falters (h : Ordered log accepted feed (some phase))
    (hfalters : Falters iterators log feed phase feed' progress) :
    Ordered log accepted feed' progress.phase? := by
  have hended : Ordered log accepted feed none := by
    refine ⟨h.cursor, h.ahead.mono fun shard _ hlive => ?_, .nil, fun hne => absurd rfl hne⟩
    rcases hlive with hunread | ⟨picture, hpicture, -⟩
    · exact .inl hunread
    · cases hpicture
  cases hfalters with
  | closed => exact ⟨hended.cursor, hended.ahead.congr rfl, hended.sorted, hended.left⟩
  | failed => exact hended
  | reopened hphase hphase' hplace =>
    refine h.stay ?_ h.ahead rfl rfl
    rw [picturesOf_reading hphase, picturesOf_reading hphase', hplace.shard, hplace.rest]

/-! ## Sessions -/

theorem preserves_ordered
    (hserve : ∀ {log request reply}, serve log request reply →
      (log.Answers iterators request reply ∨ request.Fails reply) ∧ request.OnePage reply ∧
        log.LeavesLast iterators request reply) :
    Session.Preserves serve (fun _ _ => False) iterators Ordered where
  look h := ⟨h.cursor, h.ahead, h.sorted, h.left⟩
  reply := by
    intro log accepted feed phase reply fresh feed' progress hplaced h hreply hleads
    obtain ⟨-, hone, hleaves⟩ := hserve hreply
    cases hleads with
    | answered hmoves => exact h.moves hplaced hmoves hone hleaves
    | failed hfails hfalters =>
      rw [List.append_nil]
      exact h.falters hfalters
  take h := ⟨h.cursor, h.ahead.congr rfl, h.sorted, h.left⟩
  grows _ _ hgrows := hgrows.elim

/-- On a stream that is described on one page and does not change, the records are delivered in the
    order of their numbers, and none twice, if only last shards are left before their end. Requests
    may fail at any time. -/
theorem delivered_increasing
    (hserve : ∀ {log request reply}, serve log request reply →
      (log.Answers iterators request reply ∨ request.Fails reply) ∧ request.OnePage reply ∧
        log.LeavesLast iterators request reply)
    {config : Config} {streamArn : String} {session : Session} {log' : StreamLog}
    (h : Session.Reaches serve (fun _ _ => False) (.start config streamArn, log) (session, log')) :
    session.taken.Pairwise (fun a b => a.number < b.number) ∧ session.taken.Nodup := by
  have hstart : Ordered log [] (ofArn config streamArn) none :=
    ⟨rfl, ⟨.nil, nofun, fun _ _ _ _ _ _ hseen => by cases hseen⟩, .nil, fun hne => absurd rfl hne⟩
  obtain ⟨-, hordered⟩ := Session.invariant (fun h => (hserve h).1) (fun h => h.elim)
    (preserves_ordered hserve) hstart h
  have hincreasing : session.taken.Pairwise fun a b => a.number < b.number :=
    hordered.ahead.increasing.sublist (List.sublist_append_left _ _)
  exact ⟨hincreasing, hincreasing.imp fun hlt heq => hlt.ne (congrArg RawRecord.number heq)⟩

/-! ## A closed shard that is read to its end, and one that is left before -/

/-- What a store may reply that makes a feed leave only last shards before their end. -/
def LeavesInOrder (log : StreamLog) (request : Request) (reply : Reply) : Prop :=
  (log.Answers sampleIterators request reply ∨ request.Fails reply) ∧ request.OnePage reply ∧
    log.LeavesLast sampleIterators request reply

/-- What a store may reply that describes its stream on one page. -/
def AnswersOnePage (log : StreamLog) (request : Request) (reply : Reply) : Prop :=
  log.Answers sampleIterators request reply ∧ request.OnePage reply

/-- A look at both shards. The iterator behind the record of the closed one expires, and there is
    another. -/
def orderedLook : List (Request × Reply) :=
  [(pageBehind none, replyWith ((closedThenOpen 1).page 0 2 none)),
    (startOf "a", iteratorReply (some "a0")),
    (recordsAt "a0", recordsReply ["100"] (some "a1")),
    (recordsAt "a1", .error (.expiredIterator "")),
    (behind "a" "100", iteratorReply (some "a1")),
    (recordsAt "a1", recordsReply [] none),
    (startOf "b", iteratorReply (some "b0")),
    (recordsAt "b0", recordsReply ["200"] (some "b1")),
    (recordsAt "b1", recordsReply [] (some "b1"))]

/-- A look at both shards that leaves the closed one with an iterator. -/
def leavingLook : List (Request × Reply) :=
  [(pageBehind none, replyWith ((closedThenOpen 1).page 0 2 none)),
    (startOf "a", iteratorReply (some "a0")),
    (recordsAt "a0", recordsReply ["100"] (some "a1")),
    (recordsAt "a1", recordsReply [] (some "a1")),
    (startOf "b", iteratorReply (some "b0")),
    (recordsAt "b0", recordsReply ["200"] (some "b1")),
    (recordsAt "b1", recordsReply [] (some "b1"))]

theorem answersOnePage_page :
    AnswersOnePage (closedThenOpen 1) (pageBehind none)
      (replyWith ((closedThenOpen 1).page 0 2 none)) := by
  refine ⟨@StreamLog.Answers.page _ _ _ _ ((closedThenOpen 1).page 0 2 none) 0 2 rfl rfl
    (StreamLog.shows_page (by decide) le_rfl (.inl ⟨rfl, rfl⟩)), fun page hpage => ?_⟩
  obtain rfl := Except.ok.inj hpage
  rfl

theorem answersOnePage_start {shard : ShardLog} (hshard : shard ∈ (closedThenOpen 1).shards)
    {iterator : String} (hiterator : sampleIterators iterator = (shard.id, 0)) :
    AnswersOnePage (closedThenOpen 1) (startOf shard.id) (iteratorReply (some iterator)) :=
  ⟨@StreamLog.Answers.trimHorizon _ _ _ _ ⟨some iterator⟩ shard rfl rfl hshard rfl
    (by rintro _ ⟨⟩; exact hiterator), trivial⟩

theorem answersOnePage_records {shard : ShardLog} (hshard : shard ∈ (closedThenOpen 1).shards)
    {iterator : String} {n : ℕ} (hiterator : sampleIterators iterator = (shard.id, n))
    {answer : GetRecordsReply} (hreply : (replyWith answer).as GetRecordsReply = .ok answer)
    (hrecords : answer.records <+: shard.records.drop n)
    (hnext : ∀ next ∈ answer.next,
      sampleIterators next = (shard.id, n + answer.records.length)) :
    AnswersOnePage (closedThenOpen 1) (recordsAt iterator) (replyWith answer) :=
  ⟨.records hreply hshard hiterator hrecords hnext, trivial⟩

theorem leavingLook_served :
    ∀ exchange ∈ leavingLook, AnswersOnePage (closedThenOpen 1) exchange.1 exchange.2 := by
  have hclosed : earlierShard ∈ (closedThenOpen 1).shards := List.mem_cons_self
  have hopen : laterShard 1 ∈ (closedThenOpen 1).shards :=
    List.mem_cons_of_mem _ List.mem_cons_self
  simp only [leavingLook, List.forall_mem_cons]
  refine ⟨answersOnePage_page, answersOnePage_start hclosed rfl, ?_, ?_,
    answersOnePage_start hopen rfl, ?_, ?_, by simp⟩
  · exact answersOnePage_records hclosed (n := 0) rfl rfl (List.prefix_refl _) (by decide)
  · exact answersOnePage_records hclosed (n := 1) rfl rfl (List.prefix_refl _) (by decide)
  · exact answersOnePage_records hopen (n := 0) rfl rfl (List.prefix_refl _) (by decide)
  · exact answersOnePage_records hopen (n := 1) rfl rfl (List.prefix_refl _) (by decide)

theorem orderedLook_served :
    ∀ exchange ∈ orderedLook, LeavesInOrder (closedThenOpen 1) exchange.1 exchange.2 := by
  have hclosed : earlierShard ∈ (closedThenOpen 1).shards := List.mem_cons_self
  have hopen : laterShard 1 ∈ (closedThenOpen 1).shards :=
    List.mem_cons_of_mem _ List.mem_cons_self
  have hinOrder : ∀ {request reply}, AnswersOnePage (closedThenOpen 1) request reply →
      (closedThenOpen 1).LeavesLast sampleIterators request reply →
      LeavesInOrder (closedThenOpen 1) request reply :=
    fun h hleaves => ⟨.inl h.1, h.2, hleaves⟩
  simp only [orderedLook, List.forall_mem_cons]
  refine ⟨hinOrder answersOnePage_page trivial,
    hinOrder (answersOnePage_start hclosed rfl) (fun _ => nofun), hinOrder ?_ nofun,
    ⟨.inr ⟨_, rfl⟩, trivial, nofun⟩, hinOrder ?_ nofun, hinOrder ?_ nofun,
    hinOrder (answersOnePage_start hopen rfl) (fun _ => nofun), hinOrder ?_ nofun,
    hinOrder ?_ ?_, by simp⟩
  · exact answersOnePage_records hclosed (n := 0) rfl rfl (List.prefix_refl _) (by decide)
  · exact ⟨@StreamLog.Answers.afterSequenceNumber _ _ _ _ "100" ⟨some "a1"⟩ earlierShard rfl rfl rfl
      hclosed rfl (by decide), trivial⟩
  · exact answersOnePage_records hclosed (n := 1) rfl rfl (List.prefix_refl _) nofun
  · exact answersOnePage_records hopen (n := 0) rfl rfl (List.prefix_refl _) (by decide)
  · exact answersOnePage_records hopen (n := 1) rfl rfl (List.prefix_refl _) (by decide)
  · intro next _ shard hshard n hiterator
    rcases List.mem_pair.mp hshard with rfl | rfl
    · exact absurd (show "b" = "a" from congrArg Prod.fst hiterator) (by decide)
    · refine .inr fun other hother _ => ?_
      rcases List.mem_pair.mp hother with rfl | rfl
      · decide
      · exact le_rfl

theorem shardsOf_closedThenOpen (h : feed.processed = []) :
    feed.shardsOf ((closedThenOpen 1).page 0 2 none) =
      [earlierShard.toShard, (laterShard 1).toShard] :=
  shardsOf_bothShards 1 h

/-- The feed behind both records. -/
def behindBoth : Feed := { ofArn {} "arn" with
  described := ["a", "b"], processed := ["a"], lastSeen := some ⟨"200"⟩ }

/-- The closed shard is read to its end: its record is delivered before the other, and both once. -/
theorem delivered_orderedLook :
    let session : Session := ⟨.idle behindBoth, [insertion "100", insertion "200"]⟩
    Session.Reaches LeavesInOrder (fun _ _ => False) (.start {} "arn", closedThenOpen 1)
      (session, closedThenOpen 1) ∧
    session.taken.Pairwise (fun a b => a.number < b.number) ∧ session.taken.Nodup := by
  have hlook : replay ((ofArn {} "arn").look true) orderedLook =
      some (.ok true, { behindBoth with buffer := [insertion "100", insertion "200"] }) := by
    refine (replay_listed rfl (shardsOf_closedThenOpen rfl) _).trans ?_
    decide +kernel
  have hsession : Session.Reaches LeavesInOrder (fun _ _ => False)
      (.start {} "arn", closedThenOpen 1)
      (⟨.idle behindBoth, [insertion "100", insertion "200"]⟩, closedThenOpen 1) :=
    ((Session.Reaches.replay true hlook orderedLook_served).tail .take).tail .take
  exact ⟨hsession, delivered_increasing id hsession⟩

/-- The feed behind both records when the closed shard was left before its end. -/
def leftBehind : Feed :=
  { ofArn {} "arn" with described := ["a", "b"], lastSeen := some ⟨"200"⟩ }

/-- The closed shard is left before its end: after the record of the other one, its record is
    delivered again. -/
theorem delivered_leavingLook :
    let session : Session := ⟨.idle { leftBehind with buffer := [insertion "200"] },
      [insertion "100", insertion "200", insertion "100"]⟩
    Session.Reaches AnswersOnePage (fun _ _ => False) (.start {} "arn", closedThenOpen 1)
      (session, closedThenOpen 1) ∧
    ¬ session.taken.Pairwise (fun a b => a.number < b.number) ∧ ¬ session.taken.Nodup := by
  have hfirst : replay ((ofArn {} "arn").look false) leavingLook =
      some (.ok true, { leftBehind with buffer := [insertion "100", insertion "200"] }) := by
    refine (replay_listed rfl (shardsOf_closedThenOpen rfl) _).trans ?_
    decide +kernel
  have hsecond : replay (leftBehind.look false) leavingLook =
      some (.ok true, { leftBehind with buffer := [insertion "100", insertion "200"] }) := by
    refine (replay_listed rfl (shardsOf_closedThenOpen rfl) _).trans ?_
    decide +kernel
  refine ⟨?_, by decide, by decide⟩
  exact ((((Session.Reaches.replay false hfirst leavingLook_served).tail .take).tail
    .take).trans (Session.Reaches.replay false hsecond leavingLook_served)).tail .take

end Feed

end TableClient
