import Mathlib
import TableClient.Proofs.Stream.Sequence
import TableClient.Stream.Feed

/-!
# Streams as the store keeps them

The store keeps a stream as its shards, each with its records in the order of their positions. A
stream grows: shards get further records, open shards are closed, and shards are added. The store
describes a stream in pages of shards, and hands out iterators that stand in a shard with some of
its records before them.

Results:
* `ShardLog.number_le_iff_lt_upTo`: which records are at or before a position.
* `StreamLog.cursorAt_inj`: a page goes on from one place only.
* `StreamLog.Grows.exists_shard`, `StreamLog.Grows.cursorAt`: what a grown stream still has.
-/

namespace TableClient

open Protocol (RawRecord StreamDescription GetShardIteratorReply GetRecordsReply)

/-- The position of a record. -/
def Protocol.RawRecord.position (record : RawRecord) : SequenceNumber := ⟨record.sequenceNumber⟩

/-- The number of a record with a decimal position. -/
def Protocol.RawRecord.number (record : RawRecord) : ℕ := record.position.value

/-! ## Shards -/

/-- A shard with its records, whose positions are decimal, in the range of the shard and strictly
    increasing. -/
structure ShardLog extends Shard where
  records : List RawRecord
  decimal : toShard.Decimal
  records_decimal : ∀ record ∈ records, SequenceNumber.isDecimal record.sequenceNumber = true
  records_covered : ∀ record ∈ records, toShard.Covers record.number
  increasing : records.Pairwise fun a b => a.number < b.number

namespace ShardLog

/-- The positions of the records. -/
def positions (shard : ShardLog) : List SequenceNumber := shard.records.map RawRecord.position

/-- How many records are at or before a position. -/
def upTo (shard : ShardLog) (position : SequenceNumber) : ℕ :=
  shard.records.countP fun record => record.number ≤ position.value

/-- A shard grows by further records, and it may be closed. -/
structure Grows (before after : ShardLog) : Prop where
  id : after.id = before.id
  start : after.start = before.start
  stop : before.stop = none ∨ after.stop = before.stop
  records : before.records <+: after.records

variable {shard : ShardLog} {record : RawRecord} {position : SequenceNumber} {i : ℕ}

theorem mem_positions : position ∈ shard.positions ↔ ∃ r ∈ shard.records, r.position = position :=
  List.mem_map

/-- In increasing numbers, those up to a bound stand in front. -/
theorem le_iff_lt_countP {numbers : List ℕ} (h : numbers.Pairwise (· < ·)) (bound : ℕ) {n : ℕ}
    (hn : numbers[i]? = some n) : n ≤ bound ↔ i < numbers.countP (· ≤ bound) := by
  induction numbers generalizing i with
  | nil => simp at hn
  | cons m numbers ih =>
    obtain ⟨hm, hnumbers⟩ := List.pairwise_cons.mp h
    by_cases hle : m ≤ bound
    · rw [List.countP_cons_of_pos (by simpa using hle)]
      cases i with
      | zero =>
        obtain rfl : m = n := by simpa using hn
        simp [hle]
      | succ i => rw [ih hnumbers (by simpa using hn), Nat.add_lt_add_iff_right]
    · have hnone : ∀ k ∈ numbers, ¬ (decide (k ≤ bound)) = true := by
        intro k hk
        have := hm k hk
        simp only [decide_eq_true_eq]
        omega
      rw [List.countP_cons_of_neg (by simpa using hle), List.countP_eq_zero.mpr hnone]
      have hmem := List.mem_of_getElem? hn
      rcases List.mem_cons.mp hmem with rfl | hlater
      · simp [hle]
      · have := hm n hlater
        simp only [Nat.not_lt_zero, iff_false]
        omega

/-- The records at or before a position stand in front. -/
theorem number_le_iff_lt_upTo (position : SequenceNumber)
    (h : shard.records[i]? = some record) :
    record.number ≤ position.value ↔ i < shard.upTo position := by
  have hnumbers : (shard.records.map RawRecord.number).Pairwise (· < ·) :=
    List.pairwise_map.mpr shard.increasing
  have hnumber : (shard.records.map RawRecord.number)[i]? = some record.number := by
    rw [List.getElem?_map, h]
    rfl
  have := le_iff_lt_countP hnumbers position.value hnumber
  rwa [List.countP_map] at this

/-- At or before the position of a record are those in front of it and the record itself. -/
theorem upTo_position (h : shard.records[i]? = some record) :
    shard.upTo record.position = i + 1 := by
  apply le_antisymm
  · by_contra hlt
    have hle : shard.upTo record.position ≤ shard.records.length := List.countP_le_length
    have hnext : i + 1 < shard.records.length := by omega
    have hnumber := (number_le_iff_lt_upTo record.position
      (List.getElem?_eq_getElem hnext)).mpr (by omega)
    have hi : i < shard.records.length := by omega
    obtain rfl : shard.records[i] = record := by
      simpa [List.getElem?_eq_getElem hi] using h
    have := List.pairwise_iff_getElem.mp shard.increasing i (i + 1) hi hnext (by omega)
    exact absurd hnumber (by simpa [RawRecord.number] using this)
  · exact (number_le_iff_lt_upTo record.position h).mp le_rfl

theorem upTo_le_length (shard : ShardLog) (position : SequenceNumber) :
    shard.upTo position ≤ shard.records.length :=
  List.countP_le_length

theorem isDecimal_of_mem_positions (h : position ∈ shard.positions) :
    SequenceNumber.isDecimal position.text = true := by
  obtain ⟨record, hrecord, rfl⟩ := mem_positions.mp h
  exact shard.records_decimal record hrecord

theorem covers_of_mem_positions (h : position ∈ shard.positions) :
    shard.Covers position.value := by
  obtain ⟨record, hrecord, rfl⟩ := mem_positions.mp h
  exact shard.records_covered record hrecord

namespace Grows

variable {before after : ShardLog}

theorem refl (shard : ShardLog) : shard.Grows shard :=
  ⟨rfl, rfl, .inr rfl, List.prefix_refl _⟩

theorem mem_positions (h : before.Grows after) (hmem : position ∈ before.positions) :
    position ∈ after.positions := by
  obtain ⟨record, hrecord, rfl⟩ := ShardLog.mem_positions.mp hmem
  exact ShardLog.mem_positions.mpr ⟨record, h.records.subset hrecord, rfl⟩

/-- A closed shard keeps its end. -/
theorem stop_eq (h : before.Grows after) (hclosed : before.stop ≠ none) :
    after.stop = before.stop :=
  h.stop.resolve_left hclosed

/-- The records at or before a record that was there are the same as they were. -/
theorem upTo_eq (h : before.Grows after) (hmem : position ∈ before.positions) :
    after.upTo position = before.upTo position := by
  obtain ⟨record, hrecord, rfl⟩ := ShardLog.mem_positions.mp hmem
  obtain ⟨i, hi⟩ := List.mem_iff_getElem?.mp hrecord
  obtain ⟨added, hadded⟩ := h.records
  have hlt : i < before.records.length := (List.getElem?_eq_some_iff.mp hi).1
  rw [before.upTo_position hi, after.upTo_position]
  rw [← hadded, List.getElem?_append_left hlt, hi]

end Grows

end ShardLog

/-! ## Streams -/

/-- A stream: its shards in the order in which they are described. No two shards have one id or a
    number of their ranges in common. -/
structure StreamLog where
  shards : List ShardLog
  nodup : (shards.map fun shard => shard.id).Nodup
  apart : shards.Pairwise fun a b => a.toShard.Apart b.toShard

/-- Where iterators stand: in which shard, and with how many of its records before them. -/
abbrev Iterators := String → String × ℕ

namespace StreamLog

/-- What a page names to go on from behind the first `n` shards. -/
def cursorAt (log : StreamLog) : ℕ → Option String
  | 0 => none
  | n + 1 => log.shards[n]?.map fun shard => shard.id

/-- A page shows the shards from one place on up to another. If it names none to go on from, it
    shows all that are left. -/
structure Shows (log : StreamLog) (first last : ℕ) (page : StreamDescription) : Prop where
  first_le : first ≤ last
  last_le : last ≤ log.shards.length
  shards : page.shards.map Shard.ofDescription =
    ((log.shards.take last).drop first).map ShardLog.toShard
  cursor : page.lastShardId = none ∧ last = log.shards.length ∨
    page.lastShardId ≠ none ∧ page.lastShardId = log.cursorAt last

/-- A stream grows with its shards, and by shards behind them. -/
def Grows (before after : StreamLog) : Prop :=
  ∀ (i : ℕ) (shard : ShardLog), before.shards[i]? = some shard →
    ∃ grown : ShardLog, after.shards[i]? = some grown ∧ shard.Grows grown

/-- What a store may answer to a request about a stream: a page of its shards, an iterator, if
    there is one, at the start of a shard or behind a position, or some of the records behind an
    iterator, in order, and an iterator behind these, if there is one. -/
inductive Answers (iterators : Iterators) (log : StreamLog) : Request → Reply → Prop
  | page {input : Protocol.DescribeStream} {reply : Reply} {page : StreamDescription}
      {first last : ℕ} (hreply : reply.as StreamDescription = .ok page)
      (hfirst : input.startShardId = log.cursorAt first) (hpage : log.Shows first last page) :
      Answers iterators log (.describeStream input) reply
  | trimHorizon {input : Protocol.GetShardIterator} {reply : Reply}
      {answer : GetShardIteratorReply} {shard : ShardLog}
      (hreply : reply.as GetShardIteratorReply = .ok answer) (hstart : input.start = .trimHorizon)
      (hshard : shard ∈ log.shards) (hid : shard.id = input.shardId)
      (hiterator : ∀ iterator ∈ answer.iterator, iterators iterator = (shard.id, 0)) :
      Answers iterators log (.getShardIterator input) reply
  | afterSequenceNumber {input : Protocol.GetShardIterator} {reply : Reply} {text : String}
      {answer : GetShardIteratorReply} {shard : ShardLog}
      (hreply : reply.as GetShardIteratorReply = .ok answer)
      (hstart : input.start = .afterSequenceNumber) (htext : input.sequenceNumber = some text)
      (hshard : shard ∈ log.shards) (hid : shard.id = input.shardId)
      (hiterator : ∀ iterator ∈ answer.iterator,
        iterators iterator = (shard.id, shard.upTo ⟨text⟩)) :
      Answers iterators log (.getShardIterator input) reply
  | records {input : Protocol.GetRecords} {reply : Reply} {answer : GetRecordsReply}
      {shard : ShardLog} {n : ℕ} (hreply : reply.as GetRecordsReply = .ok answer)
      (hshard : shard ∈ log.shards) (hinput : iterators input.iterator = (shard.id, n))
      (hrecords : answer.records <+: shard.records.drop n)
      (hnext : ∀ iterator ∈ answer.next,
        iterators iterator = (shard.id, n + answer.records.length)) :
      Answers iterators log (.getRecords input) reply

variable {log before after : StreamLog} {a b shard : ShardLog} {position : SequenceNumber}
  {m n : ℕ}

/-! ## Shards of a stream -/

/-- A shard of a stream is known by its id. -/
theorem eq_of_id_eq (ha : a ∈ log.shards) (hb : b ∈ log.shards) (h : a.id = b.id) : a = b :=
  List.inj_on_of_nodup_map log.nodup ha hb h

theorem apart_of_ne (ha : a ∈ log.shards) (hb : b ∈ log.shards) (h : a ≠ b) :
    a.toShard.Apart b.toShard := by
  have : Std.Symm fun a b : ShardLog => a.toShard.Apart b.toShard := ⟨fun _ _ h => h.symm⟩
  exact log.apart.forall ha hb h

/-- A position of a record is in one shard only. -/
theorem eq_of_mem_positions (ha : a ∈ log.shards) (hb : b ∈ log.shards)
    (hposition : position ∈ a.positions) (hcovers : b.Covers position.value) : a = b := by
  by_contra hne
  exact log.apart_of_ne ha hb hne _ ⟨a.covers_of_mem_positions hposition, hcovers⟩

/-- The records of a shard come before those of a shard that starts no earlier. -/
theorem number_lt_of_start_le (ha : a ∈ log.shards) (hb : b ∈ log.shards) (hne : a ≠ b)
    (hstart : a.start.value ≤ b.start.value) {r s : RawRecord} (hr : r ∈ a.records)
    (hs : s ∈ b.records) : r.number < s.number := by
  by_contra hle
  have hbefore := a.records_covered r hr
  have hcovers := b.records_covered s hs
  refine log.apart_of_ne ha hb hne s.number
    ⟨⟨hstart.trans hcovers.1, fun stop hstop => ?_⟩, hcovers⟩
  exact (not_lt.mp hle).trans (hbefore.2 stop hstop)

/-- A page goes on from one place only. -/
theorem cursorAt_inj (hm : m ≤ log.shards.length) (hn : n ≤ log.shards.length)
    (h : log.cursorAt m = log.cursorAt n) : m = n := by
  cases m with
  | zero =>
    cases n with
    | zero => rfl
    | succ n => simp [cursorAt, List.getElem?_eq_getElem hn] at h
  | succ m =>
    cases n with
    | zero => simp [cursorAt, List.getElem?_eq_getElem hm] at h
    | succ n =>
      have hlt : m < (log.shards.map fun shard => shard.id).length := by simpa using hm
      refine congrArg (· + 1) ((List.getElem?_inj hlt log.nodup).mp ?_)
      rw [List.getElem?_map, List.getElem?_map]
      exact h

/-! ## Growing -/

namespace Grows

/-- A stream grows when its shards do. -/
theorem of_forall₂
    (h : List.Forall₂ ShardLog.Grows before.shards after.shards) : before.Grows after := by
  intro i shard hshard
  obtain ⟨hi, rfl⟩ := List.getElem?_eq_some_iff.mp hshard
  have hi' : i < after.shards.length := h.length_eq ▸ hi
  exact ⟨after.shards[i], List.getElem?_eq_getElem hi', h.get hi hi'⟩

theorem length_le (h : before.Grows after) : before.shards.length ≤ after.shards.length := by
  by_contra hlt
  obtain ⟨grown, hgrown, -⟩ := h after.shards.length _
    (List.getElem?_eq_getElem (not_le.mp hlt))
  simp at hgrown

theorem exists_shard (h : before.Grows after) (hshard : shard ∈ before.shards) :
    ∃ grown ∈ after.shards, shard.Grows grown := by
  obtain ⟨i, hi⟩ := List.mem_iff_getElem?.mp hshard
  obtain ⟨grown, hgrown, hgrows⟩ := h i shard hi
  exact ⟨grown, List.mem_of_getElem? hgrown, hgrows⟩

/-- The first shards of a grown stream are grown from the first ones before. -/
theorem exists_of_mem_take (h : before.Grows after) (hn : n ≤ before.shards.length)
    {grown : ShardLog} (hgrown : grown ∈ after.shards.take n) :
    ∃ shard ∈ before.shards.take n, shard.Grows grown := by
  obtain ⟨i, hi⟩ := List.mem_iff_getElem?.mp hgrown
  have hlt : i < n := by
    have := (List.getElem?_eq_some_iff.mp hi).1
    rw [List.length_take] at this
    omega
  have hbefore := List.getElem?_eq_getElem (hlt.trans_le hn)
  obtain ⟨other, hother, hgrows⟩ := h i _ hbefore
  rw [List.getElem?_take_of_lt hlt] at hi
  obtain rfl : grown = other := Option.some.inj (hi.symm.trans hother)
  refine ⟨_, List.mem_iff_getElem?.mpr ⟨i, ?_⟩, hgrows⟩
  rw [List.getElem?_take_of_lt hlt, hbefore]

theorem cursorAt (h : before.Grows after) (hn : n ≤ before.shards.length) :
    after.cursorAt n = before.cursorAt n := by
  cases n with
  | zero => rfl
  | succ n =>
    obtain ⟨grown, hgrown, hgrows⟩ := h n _ (List.getElem?_eq_getElem hn)
    simp only [StreamLog.cursorAt, hgrown, List.getElem?_eq_getElem hn, Option.map_some, hgrows.id]

end Grows

end StreamLog

/-! ## Requests that fail -/

/-- A reply that holds no answer to a request about a stream. -/
def Request.Fails : Request → Reply → Prop
  | .describeStream _, reply => ∃ cause, reply.as StreamDescription = .error cause
  | .getShardIterator _, reply => ∃ cause, reply.as GetShardIteratorReply = .error cause
  | .getRecords _, reply => ∃ cause, reply.as GetRecordsReply = .error cause
  | _, _ => False

/-- An answer is no failure. -/
theorem StreamLog.Answers.not_fails {iterators : Iterators} {log : StreamLog} {request : Request}
    {reply : Reply} (h : log.Answers iterators request reply) : ¬ request.Fails reply := by
  cases h with
  | page hreply | trimHorizon hreply | afterSequenceNumber hreply | records hreply =>
    rintro ⟨cause, hcause⟩
    cases hreply.symm.trans hcause

end TableClient
