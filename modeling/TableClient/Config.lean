import TableClient.Json.Record

/-!
# Configuration

The settings that the operations of a client share. Durations are in milliseconds.

Results:
* `backoff_le`: no pause between two attempts is longer than the greatest one.
-/

namespace TableClient

/-- The most writes that the store takes in one batch. -/
def maxBatchWrites : Nat := 25

/-- The most keys that the store takes in one batch. -/
def maxBatchKeys : Nat := 100

/-- The longest pause between two attempts of a batch. -/
def maxBackoff : Nat := 2000

/-- The settings of a client. -/
structure Config where
  /-- Writes in one request of a batch. -/
  batchWriteSize : UInt64 := 25
  /-- Keys in one request of a batch. -/
  batchGetSize : UInt64 := 100
  /-- Rounds without progress, one after another, that a batch stands before it gives up. -/
  maxBatchRetries : UInt64 := 8
  /-- The pause after the first round without progress; it doubles with each further one. -/
  retryBackoff : UInt64 := 50
  /-- The pause between two looks at a stream while waiting for a record. -/
  pollInterval : UInt64 := 200
  /-- Expired iterators that are replaced while a shard is read. -/
  maxIteratorRefreshes : UInt64 := 3
deriving DecidableEq

namespace Config

abbrev form : RecordForm Config :=
  .madeOf
    (fun config => (config.batchWriteSize, config.batchGetSize, config.maxBatchRetries,
      config.retryBackoff, config.pollInterval, config.maxIteratorRefreshes))
    (fun (batchWriteSize, batchGetSize, maxBatchRetries, retryBackoff, pollInterval,
        maxIteratorRefreshes) =>
      { batchWriteSize, batchGetSize, maxBatchRetries, retryBackoff, pollInterval,
        maxIteratorRefreshes })
    (.and (.withDefault "batch_write_size" ({} : Config).batchWriteSize) <|
      .and (.withDefault "batch_get_size" ({} : Config).batchGetSize) <|
      .and (.withDefault "max_batch_retries" ({} : Config).maxBatchRetries) <|
      .and (.withDefault "retry_backoff" ({} : Config).retryBackoff) <|
      .and (.withDefault "poll_interval" ({} : Config).pollInterval) <|
      .withDefault "max_iterator_refreshes" ({} : Config).maxIteratorRefreshes)

instance : JsonForm Config := form.jsonForm

/-- `n`, or the nearer one of 1 and `most` when it lies outside of them. -/
def clamp (n most : Nat) : Nat := max 1 (min n most)

/-- Sets the number of writes in one request, within what the store takes. -/
def withBatchWriteSize (config : Config) (n : UInt64) : Config :=
  { config with batchWriteSize := .ofNat (clamp n.toNat maxBatchWrites) }

/-- Sets the number of keys in one request, within what the store takes. -/
def withBatchGetSize (config : Config) (n : UInt64) : Config :=
  { config with batchGetSize := .ofNat (clamp n.toNat maxBatchKeys) }

/-- The pause after the given number of rounds without progress, one after another. The pause
    doubles at most 16 times. -/
def backoff (config : Config) (rounds : Nat) : Nat :=
  min (config.retryBackoff.toNat <<< min (rounds - 1) 16) maxBackoff

/-- No pause between two attempts is longer than the greatest one. -/
theorem backoff_le (config : Config) (rounds : Nat) : config.backoff rounds ≤ maxBackoff :=
  Nat.min_le_right _ _

end Config

end TableClient
