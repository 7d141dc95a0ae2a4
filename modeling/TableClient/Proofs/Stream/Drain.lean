import Mathlib
import TableClient.Proofs.Stream.Replay

/-!
# Streams that are drained

A look goes over the pages of the description behind the place where the description goes on, and
reads the shards of these pages. The shards in front of that place are not described again. So when
a look finds nothing more, a record may be left only in a shard that was still open on a page with
more pages behind it.

Results:
* `Drains.moves`: what every answer preserves.
* `delivered_of_found_nothing`: what was delivered when a look finds nothing more.
* `not_delivered_openThenClosed`: a record is left in a shard that was open on a page before the
  last.
-/

namespace TableClient

open Protocol (RawRecord StreamDescription GetShardIteratorReply GetRecordsReply)

/-! ## Stores that hold nothing back -/

/-- A reply holds nothing back: no iterator at the start of a shard is missing but for a closed
    shard without records, no records are missing unless there are none behind the iterator, and no
    iterator behind them is missing but at the end of a closed shard. -/
def StreamLog.Exhausts (iterators : Iterators) (log : StreamLog) : Request → Reply → Prop
  | .getShardIterator input, reply =>
    input.start = .trimHorizon → reply.as GetShardIteratorReply = .ok ⟨none⟩ →
      ∀ shard ∈ log.shards, shard.id = input.shardId → shard.stop ≠ none ∧ shard.records = []
  | .getRecords input, reply =>
    ∀ answer, reply.as GetRecordsReply = .ok answer →
      ∀ shard ∈ log.shards, ∀ n, iterators input.iterator = (shard.id, n) →
        (answer.records = [] → shard.records.length ≤ n) ∧
        (answer.next = none →
          shard.stop ≠ none ∧ shard.records.length ≤ n + answer.records.length)
  | _, _ => True

/-- A store answers a request and holds nothing back. -/
structure StreamLog.Faithful (iterators : Iterators) (log : StreamLog) (request : Request)
    (reply : Reply) : Prop where
  answers : log.Answers iterators request reply
  exhausts : log.Exhausts iterators request reply

namespace StreamLog.Faithful

variable {iterators : Iterators} {log : StreamLog} {reply : Reply} {shard : ShardLog} {n : ℕ}

theorem page {input : Protocol.DescribeStream} {page : StreamDescription} {first last : ℕ}
    (hreply : reply.as StreamDescription = .ok page)
    (hfirst : input.startShardId = log.cursorAt first) (hpage : log.Shows first last page) :
    log.Faithful iterators (.describeStream input) reply :=
  ⟨.page hreply hfirst hpage, trivial⟩

theorem trimHorizon {input : Protocol.GetShardIterator} {iterator : String}
    (hreply : reply.as GetShardIteratorReply = .ok ⟨some iterator⟩)
    (hstart : input.start = .trimHorizon) (hshard : shard ∈ log.shards)
    (hid : shard.id = input.shardId) (hiterator : iterators iterator = (shard.id, 0)) :
    log.Faithful iterators (.getShardIterator input) reply := by
  refine ⟨.trimHorizon hreply hstart hshard hid ?_, fun _ hnone => ?_⟩
  · rintro _ ⟨⟩
    exact hiterator
  · cases hreply.symm.trans hnone

theorem afterSequenceNumber {input : Protocol.GetShardIterator} {text iterator : String}
    (hreply : reply.as GetShardIteratorReply = .ok ⟨some iterator⟩)
    (hstart : input.start = .afterSequenceNumber) (htext : input.sequenceNumber = some text)
    (hshard : shard ∈ log.shards) (hid : shard.id = input.shardId)
    (hiterator : iterators iterator = (shard.id, shard.upTo ⟨text⟩)) :
    log.Faithful iterators (.getShardIterator input) reply := by
  refine ⟨.afterSequenceNumber hreply hstart htext hshard hid ?_, fun hother => ?_⟩
  · rintro _ ⟨⟩
    exact hiterator
  · cases hstart.symm.trans hother

theorem records {input : Protocol.GetRecords} {answer : GetRecordsReply}
    (hreply : reply.as GetRecordsReply = .ok answer) (hshard : shard ∈ log.shards)
    (hinput : iterators input.iterator = (shard.id, n))
    (hrecords : answer.records <+: shard.records.drop n)
    (hnext : ∀ iterator ∈ answer.next,
      iterators iterator = (shard.id, n + answer.records.length))
    (hempty : answer.records = [] → shard.records.length ≤ n)
    (hend : answer.next = none →
      shard.stop ≠ none ∧ shard.records.length ≤ n + answer.records.length) :
    log.Faithful iterators (.getRecords input) reply := by
  refine ⟨.records hreply hshard hinput hrecords hnext, ?_⟩
  intro answer' hreply' shard' hshard' n' hinput'
  obtain rfl := Except.ok.inj (hreply.symm.trans hreply')
  obtain ⟨hid, rfl⟩ := Prod.mk.inj (hinput.symm.trans hinput')
  obtain rfl := log.eq_of_id_eq hshard hshard' hid
  exact ⟨hempty, hend⟩

end StreamLog.Faithful

/-- A closed shard gets no further records. -/
def StreamLog.Seals (before after : StreamLog) : Prop :=
  ∀ shard ∈ before.shards, shard.stop ≠ none →
    ∀ grown ∈ after.shards, shard.Grows grown → grown.records = shard.records

namespace Feed

variable {serve : StreamLog → Request → Reply → Prop} {grow : StreamLog → StreamLog → Prop}
  {iterators : Iterators} {log before after : StreamLog} {feed feed' : Feed} {reply : Reply}
  {phase phase' : Phase} {progress : Progress} {fresh accepted accepted' : List RawRecord}
  {phase? : Option Phase} {id : String} {whole : Prop} {picture : Shard} {pictures : List Shard}
  {shards : List ShardLog}

/-! ## What is left to be read -/

/-- A poll is over the last page: it reads a shard of a page without more pages, or it has come to
    its end with nothing at hand. -/
def OnLastPage (feed : Feed) : Option Phase → Prop
  | some phase => ∃ reading ∈ phase.reading?, reading.more = false
  | none => feed.buffer = []

/-- The shard of an id, if it is one of these, was accepted as a whole, or it is not left yet. -/
def Owed (id : String) (accepted : List RawRecord) (pictures : List Shard)
    (shards : List ShardLog) : Prop :=
  ∀ shard ∈ shards, shard.id = id →
    shard.records ⊆ accepted ∨ ∃ picture ∈ pictures, picture.id = id

theorem Owed.mono (h : Owed id accepted pictures shards) (haccepted : accepted ⊆ accepted') :
    Owed id accepted' pictures shards := by
  intro shard hshard hid
  exact (h shard hshard hid).imp_left fun hall => List.Subset.trans hall haccepted

/-- A shard can be left that was accepted as a whole. -/
theorem Owed.leave (h : Owed id accepted (picture :: pictures) shards)
    (hleft : ∀ shard ∈ shards, shard.id = picture.id → shard.records ⊆ accepted) :
    Owed id accepted pictures shards := by
  intro shard hshard hid
  rcases h shard hshard hid with hall | ⟨other, hother, hotherId⟩
  · exact .inl hall
  · rcases List.mem_cons.mp hother with rfl | hrest
    · exact .inl (hleft shard hshard (hid.trans hotherId.symm))
    · exact .inr ⟨other, hrest, hotherId⟩

theorem OnLastPage.of_nextShard {rest : List Shard} {more : Bool}
    (hbuffer : feed'.buffer = feed.buffer)
    (h : feed'.OnLastPage (feed.nextShard rest more).phase?) : more = false := by
  rcases feed.nextShard_cases rest more with
    ⟨reading, rfl, hmore, -, hnext⟩ | ⟨rfl, -, -, hnext⟩ | ⟨rfl, hbuffered, hnext⟩
  · obtain ⟨phase, hphase, hreading⟩ := feed.openShard_eq_waiting reading
    rw [hnext, hphase] at h
    obtain ⟨reading', hreading', hlast⟩ := h
    rw [hreading, Option.mem_some_iff] at hreading'
    rw [← hmore, hreading', hlast]
  · rw [hnext] at h
    obtain ⟨reading, hreading, -⟩ := h
    cases hreading
  · rw [hnext] at h
    have hempty : feed'.buffer = [] := h
    rw [Bool.eq_false_iff]
    exact fun hmore => hbuffered hmore (hbuffer ▸ hempty)

/-- A poll that begins is over no page yet. -/
theorem not_onLastPage_describing : ¬ feed.OnLastPage (some .describing) := by
  rintro ⟨reading, hreading, -⟩
  cases hreading

/-! ## What was accepted -/

/-- What a feed takes for read was accepted: the records of a shard up to the last one seen, and all
    records of a shard that was read to its end; such a shard is closed. -/
structure Accounts (log : StreamLog) (accepted : List RawRecord) (feed : Feed) : Prop where
  seen : ∀ shard ∈ log.shards, shard.records.take (feed.reach shard) ⊆ accepted
  processed : ∀ name ∈ feed.processed,
    ∃ shard ∈ log.shards, shard.id = name ∧ shard.stop ≠ none ∧ shard.records ⊆ accepted

theorem Leads.seen (h : Leads iterators log feed phase reply fresh feed' progress)
    (hseen : ∀ shard ∈ log.shards, shard.records.take (feed.reach shard) ⊆ accepted) :
    ∀ shard ∈ log.shards, shard.records.take (feed'.reach shard) ⊆ accepted ++ fresh := by
  intro shard hshard
  have hbefore : shard.records.take (feed.reach shard) ⊆ accepted ++ fresh :=
    List.Subset.trans (hseen shard hshard) (List.subset_append_left _ _)
  rcases h.read with ⟨rfl, hlast⟩ | ⟨other, hother, m, hm, rfl, hlast⟩
  · rwa [reach_congr hlast]
  · rw [reach_congr hlast]
    by_cases hsame : shard = other
    · subst hsame
      rw [reach_extend hm, ← take_append_unseen]
      exact List.append_subset.mpr ⟨hbefore, List.subset_append_right _ _⟩
    · by_cases hfresh : feed.unseen other m = []
      · rw [hfresh] at hbefore ⊢
        rwa [extend_nil]
      · rw [reach_extend_other hother hshard hsame hfresh fun r => mem_of_mem_unseen]
        exact List.nil_subset _

/-- A shard whose last records come was accepted as a whole. -/
theorem Reads.subset_accepted {reading : ShardReading} {iterator : String}
    {answer : GetRecordsReply} {shard : ShardLog} {n : ℕ}
    (h : Reads iterators log feed reply reading iterator answer shard n)
    (hseen : ∀ shard ∈ log.shards, shard.records.take (feed.reach shard) ⊆ accepted)
    (hlength : shard.records.length ≤ n + answer.records.length) :
    shard.records ⊆ accepted ++ feed.unseen shard (n + answer.records.length) := by
  have hall : shard.records = shard.records.take (feed.reach shard) ++
      feed.unseen shard (n + answer.records.length) := by
    rw [take_append_unseen, List.take_of_length_le (hlength.trans (le_max_right _ _))]
  rw [hall]
  exact List.append_subset.mpr
    ⟨List.Subset.trans (hseen shard h.mem) (List.subset_append_left _ _),
      List.subset_append_right _ _⟩

/-- A shard that is read to its end was accepted as a whole. -/
theorem Accounts.drained {reading : ShardReading} {iterator : String} {answer : GetRecordsReply}
    {shard : ShardLog} {n : ℕ} (h : Accounts log accepted feed)
    (hreads : Reads iterators log feed reply reading iterator answer shard n)
    (hexhausts : log.Exhausts iterators (.getRecords { iterator }) reply)
    (hnext : answer.next = none) :
    shard.stop ≠ none ∧
      shard.records ⊆ accepted ++ feed.unseen shard (n + answer.records.length) := by
  obtain ⟨hclosed, hlength⟩ :=
    (hexhausts answer hreads.reply shard hreads.mem n hreads.iterator).2 hnext
  exact ⟨hclosed, hreads.subset_accepted h.seen hlength⟩

/-- A shard without further records for now was accepted as a whole. -/
theorem Accounts.paused {reading : ShardReading} {iterator : String} {answer : GetRecordsReply}
    {shard : ShardLog} {n : ℕ} (h : Accounts log accepted feed)
    (hreads : Reads iterators log feed reply reading iterator answer shard n)
    (hexhausts : log.Exhausts iterators (.getRecords { iterator }) reply)
    (hrecords : answer.records = []) : shard.records ⊆ accepted := by
  have hlength := (hexhausts answer hreads.reply shard hreads.mem n hreads.iterator).1 hrecords
  have hseen := h.seen shard hreads.mem
  rwa [List.take_of_length_le (hlength.trans hreads.reach)] at hseen

/-- What a feed takes for read after an answer was accepted. -/
theorem Accounts.moves (h : Accounts log accepted feed)
    (hplaced : Placed iterators log feed (some phase))
    (hmoves : Moves iterators log feed reply phase fresh feed' progress)
    (hexhausts : log.Exhausts iterators (feed.request phase) reply) :
    Accounts log (accepted ++ fresh) feed' := by
  refine ⟨(Leads.answered hmoves).seen h.seen, ?_⟩
  have hsame : ∀ name ∈ feed.processed, ∃ shard ∈ log.shards,
      shard.id = name ∧ shard.stop ≠ none ∧ shard.records ⊆ accepted ++ fresh := by
    intro name hname
    obtain ⟨shard, hshard, hid, hclosed, hall⟩ := h.processed name hname
    exact ⟨shard, hshard, hid, hclosed, List.Subset.trans hall (List.subset_append_left _ _)⟩
  cases hmoves with
  | listed | opened | paused | continued => exact hsame
  | @absent reading hreply =>
    split_ifs
    · intro name hname
      rcases mem_mark.mp hname with hname | rfl
      · exact hsame name hname
      · obtain ⟨shard, hshard, hpictures, -⟩ :=
          (hplaced.standing _ rfl).pending.pictured reading.shard List.mem_cons_self
        obtain ⟨hclosed, hnone⟩ := hexhausts rfl hreply shard hshard hpictures.id.symm
        refine ⟨shard, hshard, hpictures.id.symm, hclosed, ?_⟩
        rw [hnone]
        exact List.nil_subset _
    · exact hsame
  | @drained reading iterator answer shard n hreads hnext =>
    intro name hname
    rcases mem_mark.mp hname with hname | rfl
    · exact hsame name hname
    · obtain ⟨hclosed, hall⟩ := h.drained hreads hexhausts hnext
      exact ⟨shard, hreads.mem, hreads.pictures.id.symm, hclosed, hall⟩

/-! ## What the description has passed -/

/-- The description goes on behind some of the shards. Of these the shard of an id, if it is among
    them, is closed, and it was accepted as a whole or is not left yet; over the last page the same
    holds of all shards, if this is a `whole` look. -/
structure Drains (id : String) (whole : Prop) (log : StreamLog) (accepted : List RawRecord)
    (feed : Feed) (phase? : Option Phase) : Prop where
  accounts : Accounts log accepted feed
  passed : ∃ n ≤ log.shards.length, feed.lastShardId = log.cursorAt n ∧
    (∀ shard ∈ log.shards.take n, shard.id = id → shard.stop ≠ none) ∧
    Owed id accepted (picturesOf phase?) (log.shards.take n)
  whole : whole → feed.OnLastPage phase? → Owed id accepted (picturesOf phase?) log.shards

/-- A poll that reads on in a shard. -/
theorem Drains.stay (h : Drains id whole log accepted feed (some phase))
    (hreading : phase'.reading? = phase.reading?) (haccepted : accepted ⊆ accepted')
    (haccounts : Accounts log accepted' feed') (hcursor : feed'.lastShardId = feed.lastShardId) :
    Drains id whole log accepted' feed' (some phase') := by
  have hpictures := picturesOf_congr hreading
  obtain ⟨n, hn, hplace, hclosed, howed⟩ := h.passed
  refine ⟨haccounts, ⟨n, hn, hcursor.trans hplace, hclosed, hpictures ▸ howed.mono haccepted⟩, ?_⟩
  rintro hwhole ⟨reading, hmem, hlast⟩
  rw [hpictures]
  exact (h.whole hwhole ⟨reading, hreading ▸ hmem, hlast⟩).mono haccepted

/-- A poll that leaves a shard which was accepted as a whole. -/
theorem Drains.leave {reading : ShardReading} {between : Feed}
    (h : Drains id whole log accepted feed (some phase)) (hreading : phase.reading? = some reading)
    (haccepted : accepted ⊆ accepted') (haccounts : Accounts log accepted' feed')
    (hcursor : feed'.lastShardId = feed.lastShardId) (hbuffer : feed'.buffer = between.buffer)
    (hleft : ∀ shard ∈ log.shards, shard.id = reading.shard.id → shard.records ⊆ accepted') :
    Drains id whole log accepted' feed' (between.nextShard reading.rest reading.more).phase? := by
  obtain ⟨n, hn, hplace, hclosed, howed⟩ := h.passed
  rw [picturesOf_reading hreading] at howed
  refine ⟨haccounts, ⟨n, hn, hcursor.trans hplace, hclosed, ?_⟩, fun hwhole hlast => ?_⟩
  · rw [picturesOf_nextShard]
    exact (howed.mono haccepted).leave fun shard hshard =>
      hleft shard (List.mem_of_mem_take hshard)
  · have howed := h.whole hwhole ⟨reading, hreading, OnLastPage.of_nextShard hbuffer hlast⟩
    rw [picturesOf_reading hreading] at howed
    rw [picturesOf_nextShard]
    exact (howed.mono haccepted).leave hleft

/-- A poll that gets a page of the description. -/
theorem Drains.listed {page : StreamDescription} {first last : ℕ}
    (h : Drains id whole log accepted feed (some .describing))
    (hfirst : feed.lastShardId = log.cursorAt first) (hpage : log.Shows first last page)
    (hclosed : page.lastShardId ≠ none →
      ∀ shown ∈ page.shards, shown.shardId = id → shown.endingSequenceNumber ≠ none) :
    Drains id whole log accepted (feed.learn page)
      ((feed.learn page).nextShard ((feed.learn page).shardsOf page)
        page.lastShardId.isSome).phase? := by
  obtain ⟨n, hn, hplace, hpassed, howed⟩ := h.passed
  obtain rfl : n = first :=
    log.cursorAt_inj hn (hpage.first_le.trans hpage.last_le) (hplace.symm.trans hfirst)
  have hcases : ∀ shard ∈ log.shards.take last, shard ∈ log.shards.take n ∨
      ∃ shown ∈ page.shards, Shard.ofDescription shown = shard.toShard := by
    intro shard hshard
    rw [← List.take_append_drop n (log.shards.take last), List.take_take,
      min_eq_left hpage.first_le] at hshard
    refine (List.mem_append.mp hshard).imp_right fun hmem => ?_
    exact List.mem_map.mp (hpage.shards ▸ List.mem_map_of_mem hmem)
  have howed' : Owed id accepted ((feed.learn page).shardsOf page) (log.shards.take last) := by
    intro shard hshard hid
    rcases hcases shard hshard with hbefore | ⟨shown, hshown, hshard'⟩
    · rcases howed shard hbefore hid with hall | ⟨_, hnone, _⟩
      · exact .inl hall
      · cases hnone
    · have hshownId : shown.shardId = shard.id := congrArg Shard.id hshard'
      by_cases hprocessed : shown.shardId ∈ feed.processed
      · obtain ⟨other, hother, hotherId, -, hall⟩ := h.accounts.processed _ hprocessed
        obtain rfl := log.eq_of_id_eq hother (List.mem_of_mem_take hshard)
          (hotherId.trans hshownId)
        exact .inl hall
      · exact .inr ⟨_, mem_shardsOf.mpr ⟨shown, hshown, hprocessed, rfl⟩, hshownId.trans hid⟩
  have haccounts : Accounts log accepted (feed.learn page) :=
    ⟨h.accounts.seen, h.accounts.processed⟩
  rw [← picturesOf_nextShard (feed.learn page) ((feed.learn page).shardsOf page)
    page.lastShardId.isSome] at howed'
  rcases hpage.cursor with ⟨hnone, rfl⟩ | ⟨hsome, hcursor⟩
  · rw [List.take_length] at howed'
    refine ⟨haccounts, ⟨n, hn, ?_, hpassed, fun shard hshard =>
      howed' shard (List.mem_of_mem_take hshard)⟩, fun _ _ => howed'⟩
    simp [learn, hnone, hplace]
  · refine ⟨haccounts, ⟨last, hpage.last_le, ?_, ?_, howed'⟩, fun _ hlast => ?_⟩
    · rw [← hcursor]
      obtain ⟨cursor, hcursor⟩ := Option.ne_none_iff_exists'.mp hsome
      simp [learn, hcursor]
    · intro shard hshard hid
      rcases hcases shard hshard with hbefore | ⟨shown, hshown, hshard'⟩
      · exact hpassed shard hbefore hid
      · have hshownId : shown.shardId = shard.id := congrArg Shard.id hshard'
        have hend := hclosed hsome shown hshown (hshownId.trans hid)
        rw [← hshard']
        simpa [Shard.ofDescription] using hend
    · have := OnLastPage.of_nextShard rfl hlast
      simp [hsome] at this

/-- What every answer preserves. -/
theorem Drains.moves (h : Drains id whole log accepted feed (some phase))
    (hplaced : Placed iterators log feed (some phase))
    (hmoves : Moves iterators log feed reply phase fresh feed' progress)
    (hexhausts : log.Exhausts iterators (feed.request phase) reply)
    (hclosed : phase = .describing → ∀ page, reply.as StreamDescription = .ok page →
      page.lastShardId ≠ none →
        ∀ shown ∈ page.shards, shown.shardId = id → shown.endingSequenceNumber ≠ none) :
    Drains id whole log (accepted ++ fresh) feed' progress.phase? := by
  have haccounts := h.accounts.moves hplaced hmoves hexhausts
  have haccepted : accepted ⊆ accepted ++ fresh := List.subset_append_left _ _
  cases hmoves with
  | @listed page first last hreply hfirst hpage =>
    rw [List.append_nil]
    exact h.listed hfirst hpage (hclosed rfl page hreply)
  | opened hphase hphase' =>
    exact h.stay (hphase'.trans hphase.symm) haccepted haccounts rfl
  | @absent reading hreply =>
    refine h.leave rfl haccepted haccounts ?_ ?_ fun shard hshard hid => ?_
    · split_ifs <;> rfl
    · split_ifs <;> rfl
    · rw [(hexhausts rfl hreply shard hshard hid).2]
      exact List.nil_subset _
  | @drained reading iterator answer shard n hreads hnext =>
    refine h.leave rfl haccepted haccounts rfl rfl fun other hother hid => ?_
    obtain rfl := log.eq_of_id_eq hother hreads.mem (hid.trans hreads.pictures.id)
    exact (h.accounts.drained hreads hexhausts hnext).2
  | @paused reading iterator next answer shard n hreads hnext hrecords =>
    refine h.leave rfl haccepted haccounts rfl rfl fun other hother hid => ?_
    obtain rfl := log.eq_of_id_eq hother hreads.mem (hid.trans hreads.pictures.id)
    exact List.Subset.trans (h.accounts.paused hreads hexhausts hrecords) haccepted
  | continued hreads =>
    exact h.stay rfl haccepted haccounts rfl

/-! ## Sessions -/

/-- A poll that has ended leaves nothing owed, and the next one begins so, in a whole look or
    not. -/
theorem Drains.again {whole' : Prop} (h : Drains id whole log accepted feed none) :
    Drains id whole' log accepted feed (some .describing) :=
  ⟨h.accounts, h.passed, fun _ hlast => absurd hlast not_onLastPage_describing⟩

/-- What was seen of the shards of a grown stream was accepted. -/
theorem seen_of_grows (hrecalls : Recalls before feed) (hgrows : before.Grows after)
    (hseen : ∀ shard ∈ before.shards, shard.records.take (feed.reach shard) ⊆ accepted) :
    ∀ shard ∈ after.shards, shard.records.take (feed.reach shard) ⊆ accepted := by
  intro grown hgrown
  by_cases hthere : ∃ shard ∈ before.shards, shard.Grows grown
  · obtain ⟨shard, hshard, hshardGrows⟩ := hthere
    obtain ⟨added, hadded⟩ := hshardGrows.records
    rw [reach_of_grows hrecalls hgrows hshard hgrown hshardGrows, ← hadded,
      List.take_append_of_le_length (feed.reach_le_length shard)]
    exact hseen shard hshard
  · push Not at hthere
    rw [reach_of_added hrecalls hgrows hgrown hthere]
    exact List.nil_subset _

theorem Accounts.grows (h : Accounts before accepted feed) (hrecalls : Recalls before feed)
    (hgrows : before.Grows after) (hseals : before.Seals after) : Accounts after accepted feed := by
  refine ⟨seen_of_grows hrecalls hgrows h.seen, fun name hname => ?_⟩
  obtain ⟨shard, hshard, hid, hclosed, hall⟩ := h.processed name hname
  obtain ⟨grown, hgrown, hshardGrows⟩ := hgrows.exists_shard hshard
  refine ⟨grown, hgrown, hshardGrows.id.trans hid, ?_, ?_⟩
  · rwa [hshardGrows.stop_eq hclosed]
  · rwa [hseals shard hshard hclosed grown hgrown hshardGrows]

/-- The shards that the description has passed are closed, and no records are added to them. -/
theorem Drains.grows (h : Drains id False before accepted feed phase?)
    (hrecalls : Recalls before feed) (hgrows : before.Grows after) (hseals : before.Seals after) :
    Drains id False after accepted feed phase? := by
  obtain ⟨n, hn, hplace, hpassed, howed⟩ := h.passed
  refine ⟨h.accounts.grows hrecalls hgrows hseals,
    ⟨n, hn.trans hgrows.length_le, hplace.trans (hgrows.cursorAt hn).symm, ?_, ?_⟩, nofun⟩
  · intro grown hgrown hid
    obtain ⟨shard, hshard, hshardGrows⟩ := hgrows.exists_of_mem_take hn hgrown
    have hclosed := hpassed shard hshard (hshardGrows.id.symm.trans hid)
    rwa [hshardGrows.stop_eq hclosed]
  · intro grown hgrown hid
    obtain ⟨shard, hshard, hshardGrows⟩ := hgrows.exists_of_mem_take hn hgrown
    have hid' := hshardGrows.id.symm.trans hid
    rw [hseals shard (List.mem_of_mem_take hshard) (hpassed shard hshard hid') grown
      (List.mem_of_mem_take hgrown) hshardGrows]
    exact howed shard hshard hid'

section Delivered

variable
  (hserve : ∀ {log request reply}, serve log request reply →
    log.Faithful iterators request reply)
  (hgrow : ∀ {before after}, grow before after → before.Grows after ∧ before.Seals after)
  (hclosed : ∀ {log input reply page}, serve log (.describeStream input) reply →
    reply.as StreamDescription = .ok page → page.lastShardId ≠ none →
      ∀ shown ∈ page.shards, shown.shardId = id → shown.endingSequenceNumber ≠ none)

include hserve hclosed

theorem Drains.leads (h : Drains id whole log accepted feed (some phase))
    (hplaced : Placed iterators log feed (some phase))
    (hreply : serve log (feed.request phase) reply)
    (hleads : Leads iterators log feed phase reply fresh feed' progress) :
    Drains id whole log (accepted ++ fresh) feed' progress.phase? := by
  obtain ⟨hanswers, hexhausts⟩ := hserve hreply
  refine h.moves hplaced (hleads.moves hanswers) hexhausts ?_
  rintro rfl page hpage
  exact hclosed hreply hpage

include hgrow in
theorem preserves_drains : Session.Preserves serve grow iterators (Drains id False) where
  look h := h.again
  reply hplaced h hreply hleads := h.leads hserve hclosed hplaced hreply hleads
  take h := ⟨⟨h.accounts.seen, h.accounts.processed⟩, h.passed, nofun⟩
  grows hplaced h hgrows := h.grows hplaced.recalls (hgrow hgrows).1 (hgrow hgrows).2

/-- At the end of a look that finds nothing more, nothing is owed. -/
theorem Drains.owed_nil {state : Polling} {taken : List RawRecord} {log' : StreamLog}
    {requests : List Request} {found : Found}
    (hrun : Run (Still serve) poll state log requests found log') (hfound : found.1 = .ok false)
    (hplaced : Placed iterators log state.feed (some state.phase))
    (hdrains : Drains id True log (taken ++ state.feed.buffer) state.feed (some state.phase)) :
    Owed id taken [] log.shards := by
  have hserve' : ∀ {log request reply}, serve log request reply →
      log.Answers iterators request reply ∨ request.Fails reply := fun h => .inl (hserve h).answers
  induction hrun with
  | @last state log _ _ found hturn =>
    obtain ⟨feed, phase, waits⟩ := state
    obtain ⟨outcome, after⟩ := found
    obtain rfl : outcome = .ok false := hfound
    obtain ⟨reply, fresh, feed', progress, rfl, hreply, hleads, hbuffer, -, hnext⟩ :=
      hplaced.turn hserve' hturn
    obtain ⟨rfl, -, hempty⟩ := follow_nothing hnext.symm
    have hend := hdrains.leads hserve hclosed hplaced hreply hleads
    rw [List.append_assoc, ← hbuffer, hempty, List.append_nil] at hend
    exact hend.whole trivial hempty
  | @turn state state' log _ _ _ _ next _ hturn hstate hrun ih =>
    obtain ⟨feed, phase, waits⟩ := state
    obtain ⟨reply, fresh, feed', progress, rfl, hreply, hleads, hbuffer, hplaced', rfl⟩ :=
      hplaced.turn hserve' hturn
    have hdrains' := hdrains.leads hserve hclosed hplaced hreply hleads
    rw [List.append_assoc, ← hbuffer] at hdrains'
    obtain ⟨hfeed, hphase⟩ := follow_cases waits feed' progress
    rw [ofNext_of_state? hstate] at hfeed hphase
    obtain rfl : state'.feed = feed' := hfeed
    rcases hphase with hsame | ⟨hended, hagain⟩
    · rw [← hsame] at hplaced' hdrains'
      exact ih hfound hplaced' hdrains'
    · rw [hended] at hplaced' hdrains'
      obtain hagain : state'.phase = .describing := Option.some.inj hagain
      refine ih hfound ?_ ?_
      · rw [hagain]
        exact .describing hplaced'.recalls
      · rw [hagain]
        exact hdrains'.again

include hgrow in
/-- When a look at an unchanged stream finds nothing more, all records of a shard were delivered,
    unless the shard was still open on a page of the description with more pages behind it. -/
theorem delivered_of_found_nothing {config : Config} {streamArn : String} {start : StreamLog}
    {taken : List RawRecord}
    (hsession : Session.Reaches serve grow (.start config streamArn, start)
      (⟨.idle feed, taken⟩, log))
    {waits : Bool} {state : Polling} (hlook : feed.look waits = .again state)
    {requests : List Request} {log' : StreamLog}
    (hrun : Run (Still serve) poll state log requests (.ok false, feed') log') :
    ∀ shard ∈ log.shards, shard.id = id → shard.records ⊆ taken := by
  have hstart : Drains id False start [] (ofArn config streamArn) none := by
    refine ⟨⟨fun shard _ => ?_, nofun⟩, ⟨0, Nat.zero_le _, rfl, nofun, nofun⟩, nofun⟩
    rw [reach_of_not_mem fun _ h => by cases h]
    exact List.nil_subset _
  obtain ⟨hplaced, hdrains⟩ := Session.invariant (fun h => .inl (hserve h).answers)
    (fun h => (hgrow h).1) (preserves_drains hserve hgrow hclosed) hstart hsession
  replace hplaced : Placed iterators log feed none := hplaced
  replace hdrains : Drains id False log (taken ++ feed.buffer) feed none := hdrains
  obtain rfl := (look_again hlook).2
  have howed := Drains.owed_nil hserve hclosed hrun rfl (.describing hplaced.recalls) hdrains.again
  intro shard hshard hid
  rcases howed shard hshard hid with hall | ⟨_, hnone, _⟩
  · exact hall
  · cases hnone

end Delivered

end Feed

/-! ## An open shard on the last page, and one before it -/

namespace Feed

/-- A faithful store that shows the open shard only on the last page. -/
def OpenShardLast (log : StreamLog) (request : Request) (reply : Reply) : Prop :=
  log.Faithful sampleIterators request reply ∧
    ∀ input page, request = .describeStream input → reply.as StreamDescription = .ok page →
      page.lastShardId ≠ none →
        ∀ shown ∈ page.shards, shown.shardId = "b" → shown.endingSequenceNumber ≠ none

/-- Growth of a stream whose closed shards get no further records. -/
def GrowsOpen (before after : StreamLog) : Prop := before.Grows after ∧ before.Seals after

/-- A look at the closed shard. The open one is on the next page. -/
def closedPageLook : List (Request × Reply) :=
  [(pageBehind none, replyWith ((closedThenOpen 0).page 0 1 (some "a"))),
    (startOf "a", iteratorReply (some "a0")),
    (recordsAt "a0", recordsReply ["100"] none)]

/-- A look at the open shard when it has a record. -/
def openPageLook : List (Request × Reply) :=
  [(pageBehind (some "a"), replyWith ((closedThenOpen 1).page 1 2 none)),
    (startOf "b", iteratorReply (some "b0")),
    (recordsAt "b0", recordsReply ["200"] (some "b1")),
    (recordsAt "b1", recordsReply [] (some "b1"))]

/-- A look at the open shard when there is nothing more. -/
def emptyLook : List (Request × Reply) :=
  [(pageBehind (some "a"), replyWith ((closedThenOpen 1).page 1 2 none)),
    (behind "b" "200", iteratorReply (some "b1")),
    (recordsAt "b1", recordsReply [] (some "b1"))]

/-- The open shard gets further records, and the closed one stays as it is. -/
theorem growsOpen_laterShard {m n : ℕ} (hgrows : before.Grows after)
    (hbefore : before.shards ⊆ [earlierShard, laterShard m])
    (hafter : after.shards ⊆ [earlierShard, laterShard n]) : GrowsOpen before after := by
  refine ⟨hgrows, fun shard hshard hclosed grown hgrown hshardGrows => ?_⟩
  rcases List.mem_pair.mp (hbefore hshard) with rfl | rfl
  · rcases List.mem_pair.mp (hafter hgrown) with rfl | rfl
    · rfl
    · exact absurd (show "b" = "a" from hshardGrows.id) (by decide)
  · exact absurd rfl hclosed

theorem closedThenOpen_grows {m n : ℕ} (h : m ≤ n) :
    GrowsOpen (closedThenOpen m) (closedThenOpen n) :=
  growsOpen_laterShard (.of_forall₂ (.cons (.refl _) (.cons (laterShard_grows h) .nil)))
    (List.Subset.refl _) (List.Subset.refl _)

theorem openShardLast_page {log : StreamLog} (first last : ℕ) (lastShardId : Option String)
    (hreply : (replyWith (log.page first last lastShardId)).as StreamDescription =
      .ok (log.page first last lastShardId))
    (hpage : log.Shows first last (log.page first last lastShardId))
    (hshown : lastShardId ≠ none → ∀ shown ∈ (log.page first last lastShardId).shards,
      shown.shardId = "b" → shown.endingSequenceNumber ≠ none) :
    OpenShardLast log (pageBehind (log.cursorAt first))
      (replyWith (log.page first last lastShardId)) := by
  refine ⟨.page hreply rfl hpage, fun input page _ hpage' hmore => ?_⟩
  obtain rfl := Except.ok.inj (hreply.symm.trans hpage')
  exact hshown hmore

theorem closedPageLook_served :
    ∀ exchange ∈ closedPageLook, OpenShardLast (closedThenOpen 0) exchange.1 exchange.2 := by
  simp only [closedPageLook, List.forall_mem_cons]
  refine ⟨?_, ⟨?_, nofun⟩, ⟨?_, nofun⟩, by simp⟩
  · exact openShardLast_page 0 1 (some "a") rfl
      (StreamLog.shows_page (by decide) (by decide) (.inr ⟨nofun, rfl⟩)) (by decide)
  · exact @StreamLog.Faithful.trimHorizon _ _ _ earlierShard _ "a0" rfl rfl List.mem_cons_self
      rfl rfl
  · exact @StreamLog.Faithful.records _ _ _ earlierShard 0 _ ⟨[insertion "100"], none⟩ rfl
      List.mem_cons_self rfl (List.prefix_refl _) nofun nofun fun _ => ⟨by decide, le_rfl⟩

theorem openPageLook_served :
    ∀ exchange ∈ openPageLook, OpenShardLast (closedThenOpen 1) exchange.1 exchange.2 := by
  simp only [openPageLook, List.forall_mem_cons]
  refine ⟨?_, ⟨?_, nofun⟩, ⟨?_, nofun⟩, ⟨?_, nofun⟩, by simp⟩
  · exact openShardLast_page 1 2 none rfl
      (StreamLog.shows_page (by decide) le_rfl (.inl ⟨rfl, rfl⟩)) nofun
  · exact @StreamLog.Faithful.trimHorizon _ _ _ (laterShard 1) _ "b0" rfl rfl
      (List.mem_cons_of_mem _ List.mem_cons_self) rfl rfl
  · exact @StreamLog.Faithful.records _ _ _ (laterShard 1) 0 _ ⟨[insertion "200"], some "b1"⟩ rfl
      (List.mem_cons_of_mem _ List.mem_cons_self) rfl (List.prefix_refl _) (by decide) nofun nofun
  · exact @StreamLog.Faithful.records _ _ _ (laterShard 1) 1 _ ⟨[], some "b1"⟩ rfl
      (List.mem_cons_of_mem _ List.mem_cons_self) rfl (List.prefix_refl _) (by decide)
      (fun _ => le_rfl) nofun

theorem emptyLook_served :
    ∀ exchange ∈ emptyLook, OpenShardLast (closedThenOpen 1) exchange.1 exchange.2 := by
  simp only [emptyLook, List.forall_mem_cons]
  refine ⟨?_, ⟨?_, nofun⟩, ⟨?_, nofun⟩, by simp⟩
  · exact openShardLast_page 1 2 none rfl
      (StreamLog.shows_page (by decide) le_rfl (.inl ⟨rfl, rfl⟩)) nofun
  · exact @StreamLog.Faithful.afterSequenceNumber _ _ _ (laterShard 1) _ "200" "b1" rfl rfl rfl
      (List.mem_cons_of_mem _ List.mem_cons_self) rfl rfl
  · exact @StreamLog.Faithful.records _ _ _ (laterShard 1) 1 _ ⟨[], some "b1"⟩ rfl
      (List.mem_cons_of_mem _ List.mem_cons_self) rfl (List.prefix_refl _) (by decide)
      (fun _ => le_rfl) nofun

/-- The feed when the closed shard was read and left behind. -/
def behindClosed : Feed := { ofArn {} "arn" with
  described := ["a"], processed := ["a"], lastShardId := some "a", lastSeen := some ⟨"100"⟩ }

/-- The feed when the record of the open shard was taken. -/
def behindOpen : Feed :=
  { behindClosed with described := ["a", "b"], lastSeen := some ⟨"200"⟩ }

/-- The record that the open shard got after the first look is taken, and the last look finds
    nothing more. -/
theorem delivered_closedThenOpen :
    Session.Reaches OpenShardLast GrowsOpen (.start {} "arn", closedThenOpen 0)
      (⟨.idle behindOpen, [insertion "100", insertion "200"]⟩, closedThenOpen 1) ∧
    Run (Still OpenShardLast) poll ⟨behindOpen, .describing, false⟩ (closedThenOpen 1)
      (emptyLook.map Prod.fst) (.ok false, behindOpen) (closedThenOpen 1) ∧
    ∀ shard ∈ (closedThenOpen 1).shards, shard.id = "b" →
      shard.records ⊆ [insertion "100", insertion "200"] := by
  have hfirst : replay ((ofArn {} "arn").look false) closedPageLook =
      some (.ok true, { behindClosed with buffer := [insertion "100"] }) := by decide +kernel
  have hsecond : replay (behindClosed.look false) openPageLook =
      some (.ok true, { behindOpen with buffer := [insertion "200"] }) := by decide +kernel
  have hthird : replay (behindOpen.look false) emptyLook =
      some (.ok false, behindOpen) := by decide +kernel
  have hsession : Session.Reaches OpenShardLast GrowsOpen (.start {} "arn", closedThenOpen 0)
      (⟨.idle behindOpen, [insertion "100", insertion "200"]⟩, closedThenOpen 1) :=
    ((((Session.Reaches.replay false hfirst closedPageLook_served).tail .take).tail
      (.grow (closedThenOpen_grows (by decide)))).trans
        (Session.Reaches.replay false hsecond openPageLook_served)).tail .take
  have hrun := run_of_replay hthird rfl (serves_still emptyLook_served)
  refine ⟨hsession, hrun, delivered_of_found_nothing And.left id ?_ hsession rfl hrun⟩
  intro log input reply page hserved
  exact hserved.2 input page rfl

/-- A stream that shows the open shard first. -/
def openThenClosed (n : ℕ) : StreamLog where
  shards := [laterShard n, earlierShard]
  nodup := show ["b", "a"].Nodup by decide
  apart := List.pairwise_pair.mpr (earlierShard_apart n).symm

theorem openThenClosed_grows {m n : ℕ} (h : m ≤ n) :
    GrowsOpen (openThenClosed m) (openThenClosed n) :=
  growsOpen_laterShard (.of_forall₂ (.cons (laterShard_grows h) (.cons (.refl _) .nil)))
    (List.Perm.swap _ _ _).subset (List.Perm.swap _ _ _).subset

/-- A look over both pages. The open shard has no records yet. -/
def bothPagesLook : List (Request × Reply) :=
  [(pageBehind none, replyWith ((openThenClosed 0).page 0 1 (some "b"))),
    (startOf "b", iteratorReply (some "b0")),
    (recordsAt "b0", recordsReply [] (some "b0")),
    (pageBehind (some "b"), replyWith ((openThenClosed 0).page 1 2 none)),
    (startOf "a", iteratorReply (some "a0")),
    (recordsAt "a0", recordsReply ["100"] none)]

/-- A look at the last page only. -/
def lastPageLook : List (Request × Reply) :=
  [(pageBehind (some "b"), replyWith ((openThenClosed 1).page 1 2 none))]

theorem bothPagesLook_served : ∀ exchange ∈ bothPagesLook,
    (openThenClosed 0).Faithful sampleIterators exchange.1 exchange.2 := by
  simp only [bothPagesLook, List.forall_mem_cons]
  refine ⟨?_, ?_, ?_, ?_, ?_, ?_, by simp⟩
  · exact @StreamLog.Faithful.page _ _ _ _ ((openThenClosed 0).page 0 1 (some "b")) 0 1 rfl rfl
      (StreamLog.shows_page (by decide) (by decide) (.inr ⟨nofun, rfl⟩))
  · exact @StreamLog.Faithful.trimHorizon _ _ _ (laterShard 0) _ "b0" rfl rfl List.mem_cons_self
      rfl rfl
  · exact @StreamLog.Faithful.records _ _ _ (laterShard 0) 0 _ ⟨[], some "b0"⟩ rfl
      List.mem_cons_self rfl (List.prefix_refl _) (by decide) (fun _ => le_rfl) nofun
  · exact @StreamLog.Faithful.page _ _ _ _ ((openThenClosed 0).page 1 2 none) 1 2 rfl rfl
      (StreamLog.shows_page (by decide) le_rfl (.inl ⟨rfl, rfl⟩))
  · exact @StreamLog.Faithful.trimHorizon _ _ _ earlierShard _ "a0" rfl rfl
      (List.mem_cons_of_mem _ List.mem_cons_self) rfl rfl
  · exact @StreamLog.Faithful.records _ _ _ earlierShard 0 _ ⟨[insertion "100"], none⟩ rfl
      (List.mem_cons_of_mem _ List.mem_cons_self) rfl (List.prefix_refl _) nofun nofun
      fun _ => ⟨by decide, le_rfl⟩

/-- The feed when the description goes on behind the open shard. -/
def pastOpen : Feed := { ofArn {} "arn" with
  described := ["b", "a"], processed := ["a"], lastShardId := some "b", lastSeen := some ⟨"100"⟩ }

/-- The record that the open shard got after the first look is not delivered: the second look, at a
    stream that does not change, finds nothing more, and the feed is not closed. -/
theorem not_delivered_openThenClosed :
    Session.Reaches (StreamLog.Faithful sampleIterators) GrowsOpen
      (.start {} "arn", openThenClosed 0) (⟨.idle pastOpen, [insertion "100"]⟩, openThenClosed 1) ∧
    pastOpen.closed = false ∧ pastOpen.look false = .again ⟨pastOpen, .describing, false⟩ ∧
    Run (Still (StreamLog.Faithful sampleIterators)) poll ⟨pastOpen, .describing, false⟩
      (openThenClosed 1) [pageBehind (some "b")] (.ok false, pastOpen) (openThenClosed 1) ∧
    ∃ shard ∈ (openThenClosed 1).shards, ∃ record ∈ shard.records, record ∉ [insertion "100"] := by
  have hfirst : replay ((ofArn {} "arn").look false) bothPagesLook =
      some (.ok true, { pastOpen with buffer := [insertion "100"] }) := by decide +kernel
  have hsecond : replay (pastOpen.look false) lastPageLook =
      some (.ok false, pastOpen) := by decide +kernel
  have hserved : ∀ exchange ∈ lastPageLook,
      (openThenClosed 1).Faithful sampleIterators exchange.1 exchange.2 := by
    simp only [lastPageLook, List.forall_mem_cons]
    refine ⟨?_, by simp⟩
    exact @StreamLog.Faithful.page _ _ _ _ ((openThenClosed 1).page 1 2 none) 1 2 rfl rfl
      (StreamLog.shows_page (by decide) le_rfl (.inl ⟨rfl, rfl⟩))
  refine ⟨?_, rfl, rfl, run_of_replay hsecond rfl (serves_still hserved), laterShard 1,
    List.mem_cons_self, insertion "200", List.mem_cons_self, by decide⟩
  exact ((Session.Reaches.replay false hfirst bothPagesLook_served).tail .take).tail
    (.grow (openThenClosed_grows (by decide)))

end Feed

end TableClient
