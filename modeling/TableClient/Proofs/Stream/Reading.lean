import Mathlib
import TableClient.Proofs.Stream.Log

/-!
# Reading a shard

A feed reads a shard by a description that may be older than the shard is now. Of the records that
come, it accepts those behind the last record seen, if that is in the shard, and else all of them.
So as long as it reads on from no further than this, it accepts just the records that follow, in
order and without a gap.

Results:
* `foldl_accept_eq`: which records of a page are accepted, whatever comes.
* `accept_eq`: what becomes of a record that comes.
* `foldl_accept`: what becomes of records that come together.
* `reach_extend`, `reach_extend_other`: how far the feed has come then.
-/

namespace TableClient

open Protocol (RawRecord)

/-! ## Descriptions of a shard -/

/-- A description of a shard from some time: the shard may have been closed since. -/
structure Shard.Pictures (picture : Shard) (shard : ShardLog) : Prop where
  id : picture.id = shard.id
  start : picture.start = shard.start
  stop : picture.stop = none ∨ picture.stop = shard.stop

namespace Shard.Pictures

variable {picture : Shard} {shard grown : ShardLog} {position : SequenceNumber}

theorem refl (shard : ShardLog) : shard.toShard.Pictures shard := ⟨rfl, rfl, .inr rfl⟩

theorem grows (h : picture.Pictures shard) (hgrows : shard.Grows grown) :
    picture.Pictures grown := by
  refine ⟨h.id.trans hgrows.id.symm, h.start.trans hgrows.start.symm, ?_⟩
  rcases h.stop with hopen | hsame
  · exact .inl hopen
  · rcases hgrows.stop with hwas | his
    · exact .inl (hsame.trans hwas)
    · exact .inr (hsame.trans his.symm)

theorem decimal (h : picture.Pictures shard) : picture.Decimal := by
  refine ⟨h.start ▸ shard.decimal.start, fun stop hstop => ?_⟩
  rcases h.stop with hopen | hsame
  · rw [hopen] at hstop
    cases hstop
  · exact shard.decimal.stop stop (hsame ▸ hstop)

/-- The range of a shard lies in the range that a description gives. -/
theorem covers (h : picture.Pictures shard) {n : ℕ} (hn : shard.Covers n) : picture.Covers n := by
  refine ⟨h.start ▸ hn.1, fun stop hstop => ?_⟩
  rcases h.stop with hopen | hsame
  · rw [hopen] at hstop
    cases hstop
  · exact hn.2 stop (hsame ▸ hstop)

theorem contains (h : picture.Pictures shard) (hmem : position ∈ shard.positions) :
    picture.contains position = true :=
  (Shard.contains_iff_covers h.decimal (shard.isDecimal_of_mem_positions hmem)).mpr
    (h.covers (shard.covers_of_mem_positions hmem))

end Shard.Pictures

namespace Feed

variable {feed : Feed} {picture : Shard} {shard : ShardLog} {record : RawRecord} {n m i : ℕ}
  {chunk : List RawRecord}

/-! ## How far a feed has come -/

/-- The records of a shard up to the last one seen, if that is in the shard: how many there are. -/
def reach (feed : Feed) (shard : ShardLog) : ℕ :=
  match feed.lastSeen with
  | some last => if last ∈ shard.positions then shard.upTo last else 0
  | none => 0

/-- A description of a shard contains the last record seen only if the shard does. -/
def Owns (feed : Feed) (picture : Shard) (shard : ShardLog) : Prop :=
  ∀ last ∈ feed.lastSeen, picture.contains last = true → last ∈ shard.positions

/-- The feed after it has accepted some records. -/
def extend (feed : Feed) (fresh : List RawRecord) : Feed :=
  { feed with
    buffer := feed.buffer ++ fresh
    lastSeen := (fresh.getLast?.map RawRecord.position).or feed.lastSeen }

@[simp] theorem extend_nil (feed : Feed) : feed.extend [] = feed := by simp [extend]

theorem extend_append (feed : Feed) (fresh more : List RawRecord) :
    feed.extend (fresh ++ more) = (feed.extend fresh).extend more := by
  cases hmore : more.getLast? with
  | none =>
    obtain rfl := List.getLast?_eq_none_iff.mp hmore
    simp
  | some last => simp [extend, List.getLast?_append, hmore]

/-- The last record seen is then one of those accepted, or the same as before. -/
theorem lastSeen_extend {last : SequenceNumber} (h : last ∈ (feed.extend chunk).lastSeen) :
    last ∈ feed.lastSeen ∨ ∃ record ∈ chunk, record.position = last := by
  cases hend : chunk.getLast? with
  | none =>
    obtain rfl := List.getLast?_eq_none_iff.mp hend
    exact .inl (by simpa using h)
  | some record =>
    simp only [extend, hend, Option.map_some, Option.some_or, Option.mem_some_iff] at h
    exact .inr ⟨record, List.mem_of_getLast? hend, h⟩

theorem reach_of_mem {last : SequenceNumber} (hlast : feed.lastSeen = some last)
    (hmem : last ∈ shard.positions) : feed.reach shard = shard.upTo last := by
  rw [reach, hlast]
  exact if_pos hmem

theorem reach_of_not_mem (h : ∀ last ∈ feed.lastSeen, last ∉ shard.positions) :
    feed.reach shard = 0 := by
  cases hlast : feed.lastSeen with
  | none => rw [reach, hlast]
  | some last =>
    rw [reach, hlast]
    exact if_neg (h last hlast)

theorem reach_le_length (feed : Feed) (shard : ShardLog) :
    feed.reach shard ≤ shard.records.length := by
  by_cases h : ∃ last ∈ feed.lastSeen, last ∈ shard.positions
  · obtain ⟨last, hlast, hmem⟩ := h
    rw [reach_of_mem hlast hmem]
    exact shard.upTo_le_length last
  · push Not at h
    rw [reach_of_not_mem h]
    exact Nat.zero_le _

/-! ## Accepting records -/

/-- The records of a page that are accepted: those behind the one accepted last, if that one lies in
    the shard. -/
def admitted (shard : Shard) : Option SequenceNumber → List RawRecord → List RawRecord
  | _, [] => []
  | last, record :: records =>
    if last.any fun last => shard.contains last && record.position.le last then
      admitted shard last records
    else record :: admitted shard (some record.position) records

/-- Which records of a page are accepted. -/
theorem foldl_accept_eq (feed : Feed) (shard : Shard) (records : List RawRecord) :
    records.foldl (fun feed record => feed.accept shard record) feed =
      feed.extend (admitted shard feed.lastSeen records) := by
  induction records generalizing feed with
  | nil => exact feed.extend_nil.symm
  | cons record records ih =>
    have haccept : feed.accept shard record =
        if feed.lastSeen.any fun last => shard.contains last && record.position.le last then feed
        else feed.extend [record] := rfl
    rw [List.foldl_cons, ih, admitted, haccept]
    split_ifs
    · rfl
    · rw [← extend_append]
      rfl

/-- A record is passed over if it is one of those up to the last one seen, and accepted if not. -/
theorem accept_eq (hpicture : picture.Pictures shard) (howns : feed.Owns picture shard)
    (hrecord : shard.records[i]? = some record) :
    feed.accept picture record = if i < feed.reach shard then feed else feed.extend [record] := by
  have hfresh : feed.extend [record] =
      { feed with lastSeen := some record.position, buffer := feed.buffer ++ [record] } := rfl
  rw [hfresh]
  unfold accept
  by_cases h : ∃ last ∈ feed.lastSeen, last ∈ shard.positions
  · obtain ⟨last, hlast, hmem⟩ := h
    have hdecimal := shard.records_decimal record (List.mem_of_getElem? hrecord)
    have hseen : SequenceNumber.le ⟨record.sequenceNumber⟩ last = true ↔ i < feed.reach shard := by
      rw [SequenceNumber.le_iff_value_le hdecimal (shard.isDecimal_of_mem_positions hmem),
        reach_of_mem hlast hmem]
      exact ShardLog.number_le_iff_lt_upTo last hrecord
    rw [Option.mem_def] at hlast
    simp only [hlast, Option.any_some, hpicture.contains hmem, Bool.true_and, hseen]
    rfl
  · push Not at h
    have hnone : (feed.lastSeen.any fun last =>
        picture.contains last && SequenceNumber.le ⟨record.sequenceNumber⟩ last) = false := by
      rw [Option.any_eq_false]
      intro last hlast
      have : picture.contains last = false := by
        by_contra hcontains
        exact h last hlast (howns last hlast (by simpa using hcontains))
      simp [this]
    rw [reach_of_not_mem h]
    simp only [hnone, Nat.not_lt_zero]
    rfl

theorem owns_extend (hmem : ∀ r ∈ chunk, r ∈ shard.records) (howns : feed.Owns picture shard) :
    (feed.extend chunk).Owns picture shard := by
  intro last hlast hcontains
  rcases lastSeen_extend hlast with hbefore | ⟨record, hrecord, rfl⟩
  · exact howns last hbefore hcontains
  · exact ShardLog.mem_positions.mpr ⟨record, hmem record hrecord, rfl⟩

/-- The records of a shard from the first one not seen up to some place, if any are left. -/
def unseen (feed : Feed) (shard : ShardLog) (m : ℕ) : List RawRecord :=
  (shard.records.take m).drop (feed.reach shard)

theorem unseen_eq_nil (h : m ≤ feed.reach shard) : feed.unseen shard m = [] :=
  List.drop_eq_nil_of_le ((List.length_take_le _ _).trans h)

theorem mem_of_mem_unseen (h : record ∈ feed.unseen shard m) : record ∈ shard.records :=
  List.mem_of_mem_take (List.mem_of_mem_drop h)

theorem getLast?_unseen (hlt : feed.reach shard < m) (hm : m ≤ shard.records.length) :
    (feed.unseen shard m).getLast? = shard.records[m - 1]? := by
  have hne : ¬ (shard.records.take m).length ≤ feed.reach shard := by
    rw [List.length_take_of_le hm]
    omega
  have hlast : m - 1 < shard.records.length := by omega
  rw [unseen, List.getLast?_drop, if_neg hne, List.getLast?_take, if_neg (by omega),
    List.getElem?_eq_getElem hlast, Option.some_or]

/-- The records seen and those not seen are the records, in order. -/
theorem take_append_unseen (feed : Feed) (shard : ShardLog) (m : ℕ) :
    shard.records.take (feed.reach shard) ++ feed.unseen shard m =
      shard.records.take (max (feed.reach shard) m) := by
  rcases le_or_gt m (feed.reach shard) with hle | hlt
  · rw [unseen_eq_nil hle, List.append_nil, max_eq_left hle]
  · have hfront : shard.records.take (feed.reach shard) =
        (shard.records.take m).take (feed.reach shard) := by
      rw [List.take_take, min_eq_left hlt.le]
    rw [unseen, hfront, List.take_append_drop, max_eq_right hlt.le]

/-- A feed that has accepted the records it had not seen up to some place has come to that place. -/
theorem reach_extend (hm : m ≤ shard.records.length) :
    (feed.extend (feed.unseen shard m)).reach shard = max (feed.reach shard) m := by
  rcases le_or_gt m (feed.reach shard) with hle | hlt
  · rw [unseen_eq_nil hle, extend_nil, max_eq_left hle]
  · have hlast : m - 1 < shard.records.length := by omega
    have hget := List.getElem?_eq_getElem hlast
    have hseen : (feed.extend (feed.unseen shard m)).lastSeen =
        some shard.records[m - 1].position := by
      simp only [extend, getLast?_unseen hlt hm, hget, Option.map_some, Option.some_or]
    have hmem : shard.records[m - 1].position ∈ shard.positions :=
      ShardLog.mem_positions.mpr ⟨_, List.getElem_mem hlast, rfl⟩
    rw [reach_of_mem hseen hmem, shard.upTo_position hget, max_eq_right hlt.le]
    omega

/-- In no other shard is it then behind any record. -/
theorem reach_extend_other {log : StreamLog} {other : ShardLog} (hshard : shard ∈ log.shards)
    (hother : other ∈ log.shards) (hne : other ≠ shard) (hchunk : chunk ≠ [])
    (hmem : ∀ r ∈ chunk, r ∈ shard.records) : (feed.extend chunk).reach other = 0 := by
  apply reach_of_not_mem
  intro last hlast hin
  have hend := List.getLast?_eq_some_getLast hchunk
  simp only [extend, hend, Option.map_some, Option.some_or, Option.mem_some_iff] at hlast
  subst hlast
  exact hne (log.eq_of_mem_positions hother hshard hin
    (shard.records_covered _ (hmem _ (List.getLast_mem hchunk))))

/-- Of records that come together, from no further than the first one not seen, those that were not
    seen are accepted. -/
theorem foldl_accept (hpicture : picture.Pictures shard) (howns : feed.Owns picture shard)
    (hchunk : chunk <+: shard.records.drop n) (hn : n ≤ feed.reach shard) :
    chunk.foldl (fun feed record => feed.accept picture record) feed =
      feed.extend (feed.unseen shard (n + chunk.length)) := by
  induction chunk generalizing feed n with
  | nil => rw [List.foldl_nil, List.length_nil, Nat.add_zero, unseen_eq_nil hn, extend_nil]
  | cons record chunk ih =>
    obtain ⟨behind, hbehind⟩ := hchunk
    have hrecord : shard.records[n]? = some record := by
      have := congrArg (·[0]?) hbehind
      simpa using this.symm
    have hrest : chunk <+: shard.records.drop (n + 1) := by
      refine ⟨behind, ?_⟩
      have := congrArg List.tail hbehind
      simpa [List.tail_drop] using this
    have hlength : n + (record :: chunk).length = n + 1 + chunk.length := by
      rw [List.length_cons]
      omega
    rw [List.foldl_cons, accept_eq hpicture howns hrecord, hlength]
    rcases Nat.lt_or_eq_of_le hn with hlt | heq
    · rw [if_pos hlt]
      exact ih howns hrest hlt
    · -- The first record not seen: it is accepted, and the others come behind it.
      have hlt : n < shard.records.length := (List.getElem?_eq_some_iff.mp hrecord).1
      have hone : feed.unseen shard (n + 1) = [record] := by
        rw [unseen, ← heq, List.take_add_one, hrecord]
        simp [hlt.le]
      have hreach : (feed.extend [record]).reach shard = n + 1 := by
        rw [← hone, reach_extend hlt, ← heq]
        omega
      have howns' : (feed.extend [record]).Owns picture shard :=
        owns_extend (by simpa using List.mem_of_getElem? hrecord) howns
      rw [if_neg (by omega), ih howns' hrest hreach.ge, ← extend_append]
      congr 1
      rw [unseen, unseen, hreach, ← heq]
      have htake : n < (shard.records.take (n + 1 + chunk.length)).length := by
        rw [List.length_take]
        omega
      rw [List.drop_eq_getElem_cons htake, List.getElem_take]
      have : shard.records[n] = record := by simpa [List.getElem?_eq_getElem hlt] using hrecord
      rw [this]
      rfl

end Feed

end TableClient
