import Mathlib
import TableClient.Proofs.Stream.Replay

/-!
# Streams of one shard

On a stream that keeps its records in one shard, a session accepts the records of the shard one
after the other from the first on, whatever fails in between.

Results:
* `accepted_prefix`: the records accepted are a prefix of the records of the shard.
-/

namespace TableClient.Feed

open Protocol (RawRecord StreamDescription)

variable {serve : StreamLog → Request → Reply → Prop} {grow : StreamLog → StreamLog → Prop}
  {iterators : Iterators} {log : StreamLog}

/-- The stream has one shard, and the records accepted are those of the shard up to the last one
    seen. -/
def FollowsShard (log : StreamLog) (accepted : List RawRecord) (feed : Feed)
    (_phase? : Option Phase) : Prop :=
  ∃ shard, log.shards = [shard] ∧ accepted = shard.records.take (feed.reach shard)

theorem preserves_followsShard
    (hgrow : ∀ {before after}, grow before after →
      before.Grows after ∧ after.shards.length = before.shards.length) :
    Session.Preserves serve grow iterators FollowsShard where
  look h := h
  reply := by
    rintro log accepted feed phase reply fresh feed' progress - ⟨shard, hshards, rfl⟩ - hleads
    refine ⟨shard, hshards, ?_⟩
    rcases hleads.read with ⟨rfl, hseen⟩ | ⟨other, hother, m, hm, rfl, hseen⟩
    · rw [reach_congr hseen, List.append_nil]
    · obtain rfl : other = shard := by simpa [hshards] using hother
      rw [take_append_unseen, reach_congr hseen, reach_extend hm]
  take := by
    rintro log accepted feed buffer ⟨shard, hshards, rfl⟩
    exact ⟨shard, hshards, rfl⟩
  grows := by
    rintro before after accepted feed phase? hplaced ⟨shard, hshards, rfl⟩ hgrows
    obtain ⟨hgrows, hlength⟩ := hgrow hgrows
    have hshard : shard ∈ before.shards := by simp [hshards]
    obtain ⟨grown, hgrown, hshardGrows⟩ := hgrows.exists_shard hshard
    obtain ⟨only, honly⟩ : ∃ only, after.shards = [only] :=
      List.length_eq_one_iff.mp (by rw [hlength, hshards]; rfl)
    obtain rfl : grown = only := by simpa [honly] using hgrown
    refine ⟨grown, honly, ?_⟩
    obtain ⟨added, hadded⟩ := hshardGrows.records
    rw [reach_of_grows hplaced.recalls hgrows hshard hgrown hshardGrows, ← hadded,
      List.take_append_of_le_length (feed.reach_le_length shard)]

/-- At every moment of a session on a stream of one shard, the records accepted, those taken and
    those at hand behind them, are a prefix of the records of the shard: none is missing, none comes
    twice, and they are in order. Any request may fail, an iterator may be refused at any time, any
    number of the records behind an iterator may come, and the shard may get further records. -/
theorem accepted_prefix
    (hserve : ∀ {log request reply}, serve log request reply →
      log.Answers iterators request reply ∨ request.Fails reply)
    (hgrow : ∀ {before after}, grow before after →
      before.Grows after ∧ after.shards.length = before.shards.length)
    {config : Config} {streamArn : String} (hsingle : log.shards.length = 1) {session : Session}
    {log' : StreamLog}
    (h : Session.Reaches serve grow (.start config streamArn, log) (session, log')) :
    ∃ shard, log'.shards = [shard] ∧ session.accepted <+: shard.records := by
  obtain ⟨shard, hshard⟩ := List.length_eq_one_iff.mp hsingle
  have hstart : FollowsShard log [] (ofArn config streamArn) none := ⟨shard, hshard, rfl⟩
  have hgrows : ∀ {before after}, grow before after → before.Grows after := fun h => (hgrow h).1
  obtain ⟨-, last, hlast, haccepted⟩ :=
    Session.invariant hserve hgrows (preserves_followsShard hgrow) hstart h
  have haccepted : session.accepted = last.records.take (session.stage.feed.reach last) :=
    haccepted
  refine ⟨last, hlast, ?_⟩
  rw [haccepted]
  exact List.take_prefix _ _

/-- A stream whose one shard is open and has so many records. -/
def openStream (n : ℕ) : StreamLog where
  shards := [laterShard n]
  nodup := List.nodup_singleton _
  apart := List.pairwise_singleton _ _

theorem openStream_grows {m n : ℕ} (h : m ≤ n) : (openStream m).Grows (openStream n) :=
  .of_forall₂ (.cons (laterShard_grows h) .nil)

/-- A look at one record. The iterator behind it expires, no other is to be had there, and the
    record comes once more. -/
def expiringLook : List (Request × Reply) :=
  [(pageBehind none, replyWith ((openStream 1).page 0 1 none)),
    (startOf "b", iteratorReply (some "b0")),
    (recordsAt "b0", recordsReply ["200"] (some "b1")),
    (recordsAt "b1", .error (.expiredIterator "")),
    (behind "b" "200", .error (.service "Throttled" "")),
    (startOf "b", iteratorReply (some "b0")),
    (recordsAt "b0", recordsReply ["200"] (some "b1")),
    (recordsAt "b1", recordsReply [] (some "b1"))]

/-- A look after a second record came. Both records come, and then the connection breaks. -/
def brokenLook : List (Request × Reply) :=
  [(pageBehind none, replyWith ((openStream 2).page 0 1 none)),
    (behind "b" "200", iteratorReply none),
    (startOf "b", iteratorReply (some "b0")),
    (recordsAt "b0", recordsReply ["200", "201"] (some "b2")),
    (recordsAt "b2", .error .disconnected)]

/-- What a store may reply whose requests may fail. -/
def AnswersOrFails (log : StreamLog) (request : Request) (reply : Reply) : Prop :=
  log.Answers sampleIterators request reply ∨ request.Fails reply

theorem answersOrFails_page (n : ℕ)
    (hreply : (replyWith ((openStream n).page 0 1 none)).as StreamDescription =
      .ok ((openStream n).page 0 1 none)) :
    AnswersOrFails (openStream n) (pageBehind none)
      (replyWith ((openStream n).page 0 1 none)) :=
  .inl (.page hreply rfl (StreamLog.shows_page (Nat.zero_le _) le_rfl (.inl ⟨rfl, rfl⟩)))

theorem answersOrFails_start (n : ℕ) :
    AnswersOrFails (openStream n) (startOf "b") (iteratorReply (some "b0")) :=
  .inl (@StreamLog.Answers.trimHorizon _ _ _ _ ⟨some "b0"⟩ (laterShard n) rfl rfl
    List.mem_cons_self rfl (by rintro _ ⟨⟩; rfl))

theorem expiringLook_served :
    ∀ exchange ∈ expiringLook, AnswersOrFails (openStream 1) exchange.1 exchange.2 := by
  have hfirst : AnswersOrFails (openStream 1) (recordsAt "b0")
      (recordsReply ["200"] (some "b1")) :=
    .inl (@StreamLog.Answers.records _ _ _ _ ⟨[insertion "200"], some "b1"⟩ (laterShard 1) 0 rfl
      List.mem_cons_self rfl ⟨[], rfl⟩ (by decide))
  have hnone : AnswersOrFails (openStream 1) (recordsAt "b1") (recordsReply [] (some "b1")) :=
    .inl (@StreamLog.Answers.records _ _ _ _ ⟨[], some "b1"⟩ (laterShard 1) 1 rfl
      List.mem_cons_self rfl ⟨[], rfl⟩ (by decide))
  simp only [expiringLook, List.forall_mem_cons]
  exact ⟨answersOrFails_page 1 rfl, answersOrFails_start 1, hfirst, .inr ⟨_, rfl⟩,
    .inr ⟨_, rfl⟩, answersOrFails_start 1, hfirst, hnone, by simp⟩

theorem brokenLook_served :
    ∀ exchange ∈ brokenLook, AnswersOrFails (openStream 2) exchange.1 exchange.2 := by
  have hbehind : AnswersOrFails (openStream 2) (behind "b" "200") (iteratorReply none) :=
    .inl (@StreamLog.Answers.afterSequenceNumber _ _ _ _ "200" ⟨none⟩ (laterShard 2) rfl rfl rfl
      List.mem_cons_self rfl (by decide))
  have hboth : AnswersOrFails (openStream 2) (recordsAt "b0")
      (recordsReply ["200", "201"] (some "b2")) :=
    .inl (@StreamLog.Answers.records _ _ _ _ ⟨[insertion "200", insertion "201"], some "b2"⟩
      (laterShard 2) 0 rfl List.mem_cons_self rfl ⟨[], rfl⟩ (by decide))
  simp only [brokenLook, List.forall_mem_cons]
  exact ⟨answersOrFails_page 2 rfl, hbehind, answersOrFails_start 2, hboth, .inr ⟨_, rfl⟩,
    by simp⟩

/-- A session of the two looks: the first record is taken between them, and the second one is still
    at hand when the connection breaks. -/
theorem accepted_expiringLook_brokenLook :
    ∃ feed : Feed,
      Session.Reaches AnswersOrFails
        (fun before after =>
          before.Grows after ∧ after.shards.length = before.shards.length)
        (.start {} "arn", openStream 1) (⟨.idle feed, [insertion "200"]⟩, openStream 2) ∧
      feed.buffer = [insertion "201"] ∧
      ∃ shard, (openStream 2).shards = [shard] ∧
        (⟨.idle feed, [insertion "200"]⟩ : Session).accepted <+: shard.records := by
  let found : Feed := { ofArn {} "arn" with
    buffer := [insertion "200"], described := ["b"], lastSeen := some ⟨"200"⟩ }
  let broken : Feed := { found with buffer := [insertion "201"], lastSeen := some ⟨"201"⟩ }
  have hfirst : replay ((ofArn {} "arn").look false) expiringLook =
      some (.ok true, found) := by decide +kernel
  have hsecond : replay (({ found with buffer := [] } : Feed).look true) brokenLook =
      some (.error (.transport .getRecords .disconnected), broken) := by decide +kernel
  have hgrows : (openStream 1).Grows (openStream 2) ∧
      (openStream 2).shards.length = (openStream 1).shards.length :=
    ⟨openStream_grows (by decide), rfl⟩
  have hsession : Session.Reaches AnswersOrFails
      (fun before after => before.Grows after ∧ after.shards.length = before.shards.length)
      (.start {} "arn", openStream 1) (⟨.idle broken, [insertion "200"]⟩, openStream 2) :=
    (((Session.Reaches.replay false hfirst expiringLook_served).tail .take).tail
      (.grow hgrows)).trans (Session.Reaches.replay true hsecond brokenLook_served)
  exact ⟨broken, hsession, rfl, accepted_prefix id id rfl hsession⟩

end TableClient.Feed
