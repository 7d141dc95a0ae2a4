import TableClient.Protocol.Stream

/-!
# Positions in a stream

Sequence numbers are texts. A shorter text comes first, and texts of one length are compared
character by character; but when both are decimal numbers, zeros at the front do not count. The
length of a text is that of its UTF-8 form.

Results:
* `compare_swap`: comparing in the other order gives the opposite outcome.
-/

namespace TableClient

/-- A position in a stream. -/
structure SequenceNumber where
  text : String
deriving DecidableEq

namespace SequenceNumber

/-- Whether a text is a decimal number: at least one digit and nothing else. -/
def isDecimal (text : String) : Bool := !text.isEmpty && text.toList.all Char.isDigit

/-- A text without the zeros at its front. -/
def significant (text : String) : String := String.ofList (text.toList.dropWhile (· == '0'))

/-- Compares texts by their length, then character by character. -/
def compareText (a b : String) : Ordering :=
  (Ord.compare a.utf8ByteSize b.utf8ByteSize).then (Ord.compare a b)

/-- Compares two positions. -/
def compare (a b : SequenceNumber) : Ordering :=
  if isDecimal a.text && isDecimal b.text then
    compareText (significant a.text) (significant b.text)
  else compareText a.text b.text

/-- Whether `a` is at or before `b`. -/
def le (a b : SequenceNumber) : Bool := (compare a b).isLE

end SequenceNumber

/-- A shard and the range of its sequence numbers; a shard that is still open has no end. -/
structure Shard where
  id : String
  start : SequenceNumber
  stop : Option SequenceNumber
deriving DecidableEq

namespace Shard

/-- The shard of a description. -/
def ofDescription (description : Protocol.ShardDescription) : Shard :=
  ⟨description.shardId, ⟨description.startingSequenceNumber⟩,
    description.endingSequenceNumber.map .mk⟩

/-- Whether a position lies in the range of a shard. -/
def contains (shard : Shard) (position : SequenceNumber) : Bool :=
  shard.start.le position && shard.stop.all fun stop => position.le stop

end Shard

/-! ## Lemmas -/

namespace SequenceNumber

theorem compareText_swap (a b : String) : (compareText a b).swap = compareText b a := by
  have hs : (Ord.compare a b).swap = Ord.compare b a := by
    change (compareOfLessAndEq a b).swap = compareOfLessAndEq b a
    unfold compareOfLessAndEq
    by_cases h : a < b
    · have h' : ¬ b < a := fun h' => String.lt_irrefl a (String.lt_trans h h')
      have hne : b ≠ a := fun e => String.lt_irrefl a (e ▸ h)
      simp [h, h', hne]
    · by_cases he : a = b
      · subst he; rw [if_neg h, if_pos rfl]; rfl
      · by_cases h' : b < a
        · simp [h, h', he]
        · exact absurd (String.le_antisymm (String.not_lt.1 h') (String.not_lt.1 h)) he
  rw [compareText, compareText, Ordering.swap_then, hs, Nat.compare_swap]

/-- Comparing in the other order gives the opposite outcome. -/
theorem compare_swap (a b : SequenceNumber) : (compare a b).swap = compare b a := by
  unfold compare
  rw [Bool.and_comm]
  split <;> exact compareText_swap _ _

end SequenceNumber

end TableClient
