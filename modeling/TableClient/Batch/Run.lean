import TableClient.Batch.Round
import TableClient.Config

/-!
# Running a batch

A batch sends round after round until every outcome is known. After a round that settles nothing
it pauses, longer each time, and after too many such rounds one after another it gives up.
-/

namespace TableClient.Batch

/-- The number of slots in one request, within what the store takes. -/
def roundSize (config : Config) : Purpose → Nat
  | .get => Config.clamp config.batchGetSize.toNat maxBatchKeys
  | .put | .delete => Config.clamp config.batchWriteSize.toNat maxBatchWrites

/-- The outcome of a batch that sends nothing more: what is still pending has failed. -/
def finish (batch : Batch) : Except Error Unit × Batch :=
  let batch := batch.pending.foldl (fun (batch : Batch) id =>
    let attempts := (batch.slots[id]?.map Slot.attempts).getD 0
    batch.failSlot (if batch.purpose = .get then .notFound else .unprocessed attempts) id) batch
  (if batch.report.size = 0 then .ok () else .error (.batch batch.report), batch)

/-- A batch that is running, and the number of rounds without progress just before. -/
structure Running where
  batch : Batch
  stalled : Nat := 0

/-- What follows a round that settled a number of slots. -/
def afterRound (config : Config) (stalled : Nat) : Nat × Batch →
    Next Running (Except Error Unit × Batch)
  | (settled, batch) =>
    if 0 < settled then .again ⟨batch, 0⟩
    else if config.maxBatchRetries.toNat < stalled + 1 then .done batch.finish
    else .after (config.backoff (stalled + 1)) ⟨batch, stalled + 1⟩

/-- Sends a round. A failure of the request ends the batch at once. -/
def send (config : Config) (batch : Batch) (stalled : Nat) (round : List Nat) :
    Exchange (Next Running (Except Error Unit × Batch)) :=
  let batch := batch.countAttempt round
  match batch.purpose with
  | .get =>
    .call .batchGet (.batchGet (batch.getInput round)) Protocol.BatchGetReply fun
      | .ok reply => afterRound config stalled (batch.receiveItems round reply)
      | .error error => .done (.error error, batch)
  | .put | .delete =>
    .call .batchWrite (.batchWrite (batch.writeInput round)) Protocol.BatchWriteReply fun
      | .ok reply => afterRound config stalled (batch.receiveWrites round reply)
      | .error error => .done (.error error, batch)

/-- Runs a batch to its end. The result holds the batch for the sake of the items received. -/
def run (config : Config) : Conversation Running (Except Error Unit × Batch) :=
  fun ⟨batch, stalled⟩ =>
    match batch.fault? with
    | some error => .done (.done (.error error, batch))
    | none =>
      if batch.pending.isEmpty then .done (.done batch.finish)
      else
        let (round, rest) := batch.collect (roundSize config batch.purpose)
        if round.isEmpty then .done (.done batch.finish)
        else send config rest stalled round

end TableClient.Batch
