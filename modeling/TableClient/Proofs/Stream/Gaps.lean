import Mathlib
import TableClient.Proofs.Stream.Drain
import TableClient.Proofs.Stream.SingleShard

/-!
# Streams without gaps

A feed remembers one position for all shards. When it goes on to another shard it forgets how far it
had come in the one before, and reads that one from its start again the next time. So records may
be accepted more than once, but never ahead of those in front of them in their shard.

Results:
* `Leads.gapless`, `Gapless.grows`: what every reply and a growing stream preserve.
* `Leads.processed`: a shard is marked as read to its end when all its records were accepted.
* `accepted_gapless`: both, at every moment of a session.
-/

namespace TableClient

open Protocol (RawRecord GetShardIteratorReply GetRecordsReply)

/-- In front of a record of a shard stand those with smaller numbers. -/
theorem ShardLog.mem_of_number_lt {shard : ShardLog} {front back : List RawRecord}
    {earlier later : RawRecord} (hsplit : front ++ later :: back <+: shard.records)
    (hearlier : earlier ∈ shard.records) (hlt : earlier.number < later.number) :
    earlier ∈ front := by
  obtain ⟨rest, hrest⟩ := hsplit
  have hincreasing := shard.increasing
  rw [← hrest, List.append_assoc, List.cons_append] at hearlier hincreasing
  obtain ⟨-, hbehind, -⟩ := List.pairwise_append.mp hincreasing
  rcases List.mem_append.mp hearlier with hfront | hback
  · exact hfront
  · rcases List.mem_cons.mp hback with rfl | hmem
    · exact absurd hlt (lt_irrefl _)
    · exact absurd ((List.pairwise_cons.mp hbehind).1 earlier hmem) hlt.not_gt

/-- An element of two lists one behind the other stands in the first or in the second. -/
theorem append_split {α : Type} {first second front back : List α} {a : α}
    (h : first ++ second = front ++ a :: back) :
    (∃ rest, first = front ++ a :: rest) ∨
      ∃ middle, front = first ++ middle ∧ second = middle ++ a :: back := by
  rcases List.append_eq_append_iff.mp h with ⟨middle, hfront, hsecond⟩ | ⟨rest, hfirst, hback⟩
  · exact .inr ⟨middle, hfront, hsecond⟩
  · cases rest with
    | nil => exact .inr ⟨[], by simpa using hfirst.symm, hback.symm⟩
    | cons b rest =>
      obtain ⟨rfl, -⟩ := List.cons.inj hback
      exact .inl ⟨rest, hfirst⟩

/-- A record is in one shard only. -/
theorem StreamLog.eq_of_mem_records {log : StreamLog} {a b : ShardLog} {record : RawRecord}
    (ha : a ∈ log.shards) (hb : b ∈ log.shards) (hmem : record ∈ a.records)
    (hmem' : record ∈ b.records) : a = b :=
  log.eq_of_mem_positions ha hb (ShardLog.mem_positions.mpr ⟨record, hmem, rfl⟩)
    (b.records_covered record hmem')

/-- A reply holds no iterator back but at the end: none is missing at the start of a shard, and none
    behind records unless these are the last ones of a closed shard. -/
def StreamLog.Completes (iterators : Iterators) (log : StreamLog) : Request → Reply → Prop
  | .getShardIterator input, reply =>
    input.start = .trimHorizon → reply.as GetShardIteratorReply ≠ .ok ⟨none⟩
  | .getRecords input, reply =>
    ∀ answer, reply.as GetRecordsReply = .ok answer → answer.next = none →
      ∀ shard ∈ log.shards, ∀ n, iterators input.iterator = (shard.id, n) →
        shard.stop ≠ none ∧ shard.records.length ≤ n + answer.records.length
  | _, _ => True

namespace Feed

variable {serve : StreamLog → Request → Reply → Prop} {grow : StreamLog → StreamLog → Prop}
  {iterators : Iterators} {log before after : StreamLog} {feed feed' : Feed} {reply : Reply}
  {phase : Phase} {progress : Progress} {fresh accepted : List RawRecord}

/-! ## Gaps -/

/-- The records accepted are records of the stream, and each was accepted behind all earlier ones of
    its shard. Those up to the last one seen are among them. -/
structure Gapless (log : StreamLog) (accepted : List RawRecord) (feed : Feed) : Prop where
  known : ∀ record ∈ accepted, ∃ shard ∈ log.shards, record ∈ shard.records
  seen : ∀ shard ∈ log.shards, shard.records.take (feed.reach shard) ⊆ accepted
  ordered : ∀ front later back, accepted = front ++ later :: back →
    ∀ shard ∈ log.shards, later ∈ shard.records →
      ∀ earlier ∈ shard.records, earlier.number < later.number → earlier ∈ front

/-- What every reply preserves: the records it brings come right behind those that were seen. -/
theorem Leads.gapless (h : Leads iterators log feed phase reply fresh feed' progress)
    (hgapless : Gapless log accepted feed) : Gapless log (accepted ++ fresh) feed' := by
  have hfresh : fresh = [] ∨ ∃ shard ∈ log.shards, ∃ m, fresh = feed.unseen shard m :=
    h.read.imp And.left fun ⟨shard, hshard, m, _, hfresh, _⟩ => ⟨shard, hshard, m, hfresh⟩
  refine ⟨fun record hrecord => ?_, h.seen hgapless.seen, ?_⟩
  · rcases List.mem_append.mp hrecord with hbefore | hmem
    · exact hgapless.known record hbefore
    · rcases hfresh with rfl | ⟨shard, hshard, m, rfl⟩
      · cases hmem
      · exact ⟨shard, hshard, mem_of_mem_unseen hmem⟩
  · intro front later back hsplit shard hshard hlater earlier hearlier hlt
    rcases append_split hsplit with ⟨rest, haccepted⟩ | ⟨newer, rfl, hnewer⟩
    · exact hgapless.ordered front later rest haccepted shard hshard hlater earlier hearlier hlt
    · -- the reply brings the later record
      rcases hfresh with rfl | ⟨source, hsource, m, hm⟩
      · simp at hnewer
      · have hmem : later ∈ feed.unseen source m := by
          rw [← hm, hnewer]
          exact List.mem_append_right _ List.mem_cons_self
        obtain rfl := log.eq_of_mem_records hshard hsource hlater (mem_of_mem_unseen hmem)
        have hfront : shard.records.take (feed.reach shard) ++ newer ++ later :: back <+:
            shard.records := by
          rw [List.append_assoc, ← hnewer, hm, take_append_unseen]
          exact List.take_prefix _ _
        rcases List.mem_append.mp (ShardLog.mem_of_number_lt hfront hearlier hlt) with hseen | hnew
        · exact List.mem_append_left _ (hgapless.seen shard hshard hseen)
        · exact List.mem_append_right _ hnew

/-- A growing stream adds records behind those that were accepted. -/
theorem Gapless.grows (h : Gapless before accepted feed) (hrecalls : Recalls before feed)
    (hgrows : before.Grows after) : Gapless after accepted feed := by
  refine ⟨fun record hrecord => ?_, seen_of_grows hrecalls hgrows h.seen, ?_⟩
  · obtain ⟨shard, hshard, hmem⟩ := h.known record hrecord
    obtain ⟨grown, hgrown, hshardGrows⟩ := hgrows.exists_shard hshard
    exact ⟨grown, hgrown, hshardGrows.records.subset hmem⟩
  · intro front later back hsplit grown hgrown hlater earlier hearlier hlt
    have hmem : later ∈ accepted := hsplit ▸ List.mem_append_right _ List.mem_cons_self
    obtain ⟨shard, hshard, hold⟩ := h.known later hmem
    obtain ⟨other, hother, hshardGrows⟩ := hgrows.exists_shard hshard
    obtain rfl := after.eq_of_mem_records hgrown hother hlater (hshardGrows.records.subset hold)
    obtain ⟨older, newer, hrecords⟩ := List.append_of_mem hold
    have hfront : older ++ later :: newer <+: grown.records := hrecords ▸ hshardGrows.records
    have hthere : earlier ∈ shard.records := by
      rw [hrecords]
      exact List.mem_append_left _ (ShardLog.mem_of_number_lt hfront hearlier hlt)
    exact h.ordered front later back hsplit shard hshard hold earlier hthere hlt

theorem preserves_gapless (hgrow : ∀ {before after}, grow before after → before.Grows after) :
    Session.Preserves serve grow iterators fun log accepted feed _ =>
      Gapless log accepted feed where
  look h := h
  reply _ h _ hleads := hleads.gapless h
  take h := ⟨h.known, h.seen, h.ordered⟩
  grows hplaced h hgrows := h.grows hplaced.recalls (hgrow hgrows)

/-! ## Shards that are read to their end -/

/-- A reply marks a shard as read to its end when all its records were accepted. -/
theorem Leads.processed (h : Leads iterators log feed phase reply fresh feed' progress)
    (hcompletes : log.Completes iterators (feed.request phase) reply)
    (hseen : ∀ shard ∈ log.shards, shard.records.take (feed.reach shard) ⊆ accepted) {id : String}
    (hid : id ∈ feed'.processed) :
    id ∈ feed.processed ∨ ∃ shard ∈ log.shards, shard.id = id ∧ shard.stop ≠ none ∧
      shard.records ⊆ accepted ++ fresh := by
  cases h with
  | answered h =>
    cases h with
    | listed | opened | paused | continued => exact .inl hid
    | absent hreply => exact absurd hreply (hcompletes rfl)
    | @drained reading iterator answer shard n hreads hnext =>
      refine (mem_mark.mp hid).imp_right fun hnew => ?_
      obtain ⟨hclosed, hlength⟩ :=
        hcompletes answer hreads.reply hnext shard hreads.mem n hreads.iterator
      exact ⟨shard, hreads.mem, hreads.pictures.id.symm.trans hnew.symm, hclosed,
        hreads.subset_accepted hseen hlength⟩
  | failed hfails h => cases h <;> exact .inl hid

/-! ## Sessions -/

section Sessions

variable
  (hserve : ∀ {log request reply}, serve log request reply →
    log.Answers iterators request reply ∨ request.Fails reply)
  (hgrow : ∀ {before after}, grow before after → before.Grows after)

include hserve in
/-- Whatever happens next in a session marks a shard as read to its end only when all its records
    were accepted. -/
theorem Session.Step.processed
    (hcompletes : ∀ {log request reply}, serve log request reply →
      log.Completes iterators request reply) {moment next : Session × StreamLog}
    (h : Session.Step serve grow moment next)
    (hhas : Session.Has iterators (fun log accepted feed _ => Gapless log accepted feed) moment)
    {id : String} (hid : id ∈ next.1.stage.feed.processed) :
    id ∈ moment.1.stage.feed.processed ∨ ∃ shard ∈ next.2.shards, shard.id = id ∧
      shard.stop ≠ none ∧ shard.records ⊆ next.1.accepted := by
  obtain ⟨hplaced, hgapless⟩ := hhas
  cases h with
  | @look feed taken log waits =>
    rw [(feed.look_cases waits).1] at hid
    exact .inl hid
  | @turn state taken log log' requests next hturn =>
    obtain ⟨feed, phase, waits⟩ := state
    obtain ⟨reply, fresh, feed', progress, rfl, hreply, hleads, hbuffer, -, rfl⟩ :=
      hplaced.turn hserve hturn
    have hfeed := (follow_cases waits feed' progress).1
    have hseen : ∀ shard ∈ log'.shards,
        shard.records.take (feed.reach shard) ⊆ taken ++ feed.buffer := hgapless.seen
    rw [hfeed] at hid
    rw [Session.accepted, hfeed, hbuffer, ← List.append_assoc]
    exact hleads.processed (hcompletes hreply) hseen hid
  | @take feed taken log =>
    rw [take_eq] at hid
    exact .inl hid
  | grow => exact .inl hid

include hserve hgrow in
/-- At every moment of a session, each record was accepted behind all earlier ones of its shard, and
    a shard is marked as read to its end only when all its records were accepted, if no iterator is
    held back but at the end of a closed shard. Any request may fail, an iterator may be refused at
    any time, none may be given behind a position, any number of the records behind an iterator may
    come, and the stream may grow. -/
theorem accepted_gapless {config : Config} {streamArn : String} {session : Session}
    (h : Session.Reaches serve grow (.start config streamArn, before) (session, log)) :
    (∀ front later back, session.accepted = front ++ later :: back →
      ∀ shard ∈ log.shards, later ∈ shard.records →
        ∀ earlier ∈ shard.records, earlier.number < later.number → earlier ∈ front) ∧
    ((∀ {log request reply}, serve log request reply → log.Completes iterators request reply) →
      ∀ next, Session.Step serve grow (session, log) next →
        ∀ id ∈ next.1.stage.feed.processed, id ∈ session.stage.feed.processed ∨
          ∃ shard ∈ next.2.shards, shard.id = id ∧ shard.stop ≠ none ∧
            shard.records ⊆ next.1.accepted) := by
  have hstart : Gapless before [] (ofArn config streamArn) := by
    refine ⟨nofun, fun shard _ => ?_, by simp⟩
    rw [reach_of_not_mem fun _ h => by cases h]
    exact List.nil_subset _
  have hhas := Session.invariant hserve hgrow (preserves_gapless hgrow) hstart h
  refine ⟨?_, fun hcompletes next hstep id hid => ?_⟩
  · exact (show Gapless log session.accepted session.stage.feed from hhas.2).ordered
  · exact hstep.processed hserve hcompletes hhas hid

end Sessions

/-! ## Two looks -/

/-- A store whose requests may fail, and that holds no iterator back but at the end of a closed
    shard. -/
def CompletesOrFails (log : StreamLog) (request : Request) (reply : Reply) : Prop :=
  AnswersOrFails log request reply ∧ log.Completes sampleIterators request reply

/-- A look at both shards. The iterator into the open one expires behind its first record, no other
    is to be had there, and when both its records have come the connection breaks. -/
def interruptedLook : List (Request × Reply) :=
  [(pageBehind none, replyWith ((closedThenOpen 2).page 0 2 none)),
    (startOf "a", iteratorReply (some "a0")),
    (recordsAt "a0", recordsReply ["100"] (some "a1")),
    (recordsAt "a1", recordsReply [] (some "a1")),
    (startOf "b", iteratorReply (some "b0")),
    (recordsAt "b0", recordsReply ["200"] (some "b1")),
    (recordsAt "b1", .error (.expiredIterator "")),
    (behind "b" "200", iteratorReply none),
    (startOf "b", iteratorReply (some "b0")),
    (recordsAt "b0", recordsReply ["200", "201"] (some "b2")),
    (recordsAt "b2", .error .disconnected)]

theorem completesOrFails_page :
    CompletesOrFails (closedThenOpen 2) (pageBehind none)
      (replyWith ((closedThenOpen 2).page 0 2 none)) :=
  ⟨.inl (@StreamLog.Answers.page _ _ _ _ ((closedThenOpen 2).page 0 2 none) 0 2 rfl rfl
    (StreamLog.shows_page (Nat.zero_le _) le_rfl (.inl ⟨rfl, rfl⟩))), trivial⟩

theorem completesOrFails_start {shard : ShardLog} (hshard : shard ∈ log.shards) {iterator : String}
    (hiterator : sampleIterators iterator = (shard.id, 0)) :
    CompletesOrFails log (startOf shard.id) (iteratorReply (some iterator)) := by
  have hreply : (iteratorReply (some iterator)).as GetShardIteratorReply = .ok ⟨some iterator⟩ :=
    rfl
  refine ⟨.inl (.trimHorizon hreply rfl hshard rfl ?_), fun _ hnone => ?_⟩
  · rintro _ ⟨⟩
    exact hiterator
  · cases hreply.symm.trans hnone

theorem completesOrFails_records (answer : GetRecordsReply)
    (hreply : (replyWith answer).as GetRecordsReply = .ok answer) {shard : ShardLog}
    (hshard : shard ∈ log.shards) {iterator : String} {n : ℕ}
    (hinput : sampleIterators iterator = (shard.id, n))
    (hrecords : answer.records <+: shard.records.drop n)
    (hnext : ∀ next ∈ answer.next, sampleIterators next = (shard.id, n + answer.records.length))
    (hend : answer.next = none →
      shard.stop ≠ none ∧ shard.records.length ≤ n + answer.records.length) :
    CompletesOrFails log (recordsAt iterator) (replyWith answer) := by
  refine ⟨.inl (.records hreply hshard hinput hrecords hnext), ?_⟩
  intro answer' hreply' hnone other hother m hiterator
  obtain rfl := Except.ok.inj (hreply.symm.trans hreply')
  obtain ⟨hid, rfl⟩ := Prod.mk.inj (hinput.symm.trans hiterator)
  obtain rfl := log.eq_of_id_eq hshard hother hid
  exact hend hnone

theorem earlierShard_mem : earlierShard ∈ (closedThenOpen 2).shards := List.mem_cons_self

theorem laterShard_mem : laterShard 2 ∈ (closedThenOpen 2).shards :=
  List.mem_cons_of_mem _ List.mem_cons_self

theorem interruptedLook_served :
    ∀ exchange ∈ interruptedLook, CompletesOrFails (closedThenOpen 2) exchange.1 exchange.2 := by
  simp only [interruptedLook, List.forall_mem_cons]
  refine ⟨completesOrFails_page, completesOrFails_start earlierShard_mem rfl, ?_, ?_,
    completesOrFails_start laterShard_mem rfl, ?_, ⟨.inr ⟨_, rfl⟩, nofun⟩, ⟨.inl ?_, nofun⟩,
    completesOrFails_start laterShard_mem rfl, ?_, ⟨.inr ⟨_, rfl⟩, nofun⟩, by simp⟩
  · exact completesOrFails_records ⟨[insertion "100"], some "a1"⟩ rfl earlierShard_mem rfl
      (List.prefix_refl _) (by decide) nofun
  · exact completesOrFails_records ⟨[], some "a1"⟩ rfl earlierShard_mem rfl (List.prefix_refl _)
      (by decide) nofun
  · exact completesOrFails_records ⟨[insertion "200"], some "b1"⟩ rfl laterShard_mem rfl
      ⟨[insertion "201"], rfl⟩ (by decide) nofun
  · exact @StreamLog.Answers.afterSequenceNumber _ _ _ _ "200" ⟨none⟩ (laterShard 2) rfl rfl rfl
      laterShard_mem rfl nofun
  · exact completesOrFails_records ⟨[insertion "200", insertion "201"], some "b2"⟩ rfl
      laterShard_mem rfl (List.prefix_refl _) (by decide) nofun

/-- The feed when the records of the interrupted look were taken. -/
def interrupted : Feed :=
  { ofArn {} "arn" with described := ["a", "b"], lastSeen := some ⟨"201"⟩ }

/-- The next look has forgotten how far it had come in the closed shard. -/
def rereading : ShardReading := ⟨earlierShard.toShard, 0, [(laterShard 2).toShard], false⟩

theorem reaches_rereading (taken : List RawRecord) :
    Session.Reaches CompletesOrFails grow (⟨.idle interrupted, taken⟩, closedThenOpen 2)
      (⟨.polling ⟨interrupted, .reading rereading "a0", false⟩, taken⟩, closedThenOpen 2) := by
  have hlisted : follow false (interrupted.receive .describing
      (replyWith ((closedThenOpen 2).page 0 2 none))) =
        .again ⟨interrupted, .rewinding rereading, false⟩ := by
    rw [receive_listed rfl (shardsOf_bothShards 2 rfl)]
    rfl
  have hopened : follow false (interrupted.receive (.rewinding rereading)
      (iteratorReply (some "a0"))) = .again ⟨interrupted, .reading rereading "a0", false⟩ := rfl
  exact ((Relation.ReflTransGen.single (.look false)).tail
    (.of_serve completesOrFails_page hlisted)).tail
      (.of_serve (completesOrFails_start earlierShard_mem rfl) hopened)

/-- The second record of the open shard was accepted behind the first one, and the closed shard is
    marked as read to its end when its record is accepted once more. -/
theorem accepted_gapless_interruptedLook :
    ∃ (session : Session) (next : Session × StreamLog),
      Session.Reaches CompletesOrFails StreamLog.Grows (.start {} "arn", closedThenOpen 1)
        (session, closedThenOpen 2) ∧
      session.accepted = [insertion "100", insertion "200"] ++ insertion "201" :: [] ∧
      insertion "200" ∈ [insertion "100", insertion "200"] ∧
      Session.Step CompletesOrFails StreamLog.Grows (session, closedThenOpen 2) next ∧
      session.stage.feed.processed = [] ∧ next.1.stage.feed.processed = ["a"] ∧
      ∃ shard ∈ next.2.shards, shard.id = "a" ∧ shard.stop ≠ none ∧
        shard.records ⊆ next.1.accepted := by
  let taken := [insertion "100", insertion "200", insertion "201"]
  have hlook : replay ((ofArn {} "arn").look false) interruptedLook =
      some (.error (.transport .getRecords .disconnected),
        { interrupted with buffer := taken }) := by
    refine (replay_listed rfl (shardsOf_bothShards 2 rfl) _).trans ?_
    decide +kernel
  have hgrows : (closedThenOpen 1).Grows (closedThenOpen 2) := (closedThenOpen_grows (by decide)).1
  have hsession : Session.Reaches CompletesOrFails StreamLog.Grows
      (.start {} "arn", closedThenOpen 1)
      (⟨.polling ⟨interrupted, .reading rereading "a0", false⟩, taken⟩, closedThenOpen 2) :=
    (((((Relation.ReflTransGen.single (.grow hgrows)).trans
      (Session.Reaches.replay false hlook interruptedLook_served)).tail .take).tail .take).tail
        .take).trans (reaches_rereading taken)
  have hserved : CompletesOrFails (closedThenOpen 2) (recordsAt "a0") (recordsReply ["100"] none) :=
    completesOrFails_records ⟨[insertion "100"], none⟩ rfl earlierShard_mem rfl
      (List.prefix_refl _) nofun fun _ => ⟨by decide, le_rfl⟩
  have hstep : Session.Step CompletesOrFails StreamLog.Grows
      (⟨.polling ⟨interrupted, .reading rereading "a0", false⟩, taken⟩, closedThenOpen 2)
      (⟨.ofNext (follow false (interrupted.receive (.reading rereading "a0")
        (recordsReply ["100"] none))), taken⟩, closedThenOpen 2) := .of_serve hserved rfl
  obtain ⟨hordered, hprocessed⟩ := accepted_gapless And.left id hsession
  refine ⟨_, _, hsession, rfl, ?_, hstep, rfl, rfl, ?_⟩
  · exact hordered _ _ _ rfl (laterShard 2) laterShard_mem (by decide) (insertion "200")
      (by decide) (by decide)
  · exact (hprocessed And.right _ hstep "a" (by decide)).resolve_left (by decide)

end Feed

end TableClient
