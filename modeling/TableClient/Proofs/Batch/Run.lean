import Mathlib
import TableClient.Batch.Run
import TableClient.Proofs.Batch.Echo
import TableClient.Proofs.Conversation

/-!
# Turns of a batch

In a turn a batch ends without a request, or sends the request of one round: then it ends with the
failure of the request, or takes the reply and goes on or ends.

Results:
* `run_eq_ite`: what a batch asks for, and what it makes of the reply.
* `afterRound_cases`: what follows a round.
* `turn_run`: what a turn of a batch that writes does.
* `Reached.turn`: the batches that a run goes through are those after some rounds.
-/

namespace TableClient.Batch

open Protocol (BatchGetReply BatchWriteReply)

variable {S : Type} {serve : S → Request → Reply → S → Prop} {config : Config} {batch : Batch}
  {stalled : Nat} {store store' : S} {requests : List Request}
  {next : Next Running (Except Error Unit × Batch)}

/-! ## Requests and replies -/

/-- The request that carries a round. -/
def requestFor (batch : Batch) (round : List Nat) : Request :=
  match batch.purpose with
  | .get => .batchGet (batch.getInput round)
  | .put | .delete => .batchWrite (batch.writeInput round)

/-- What is made of the reply to the request for a round: the number of settled slots and the batch
    after it, or why the request failed. -/
def receive (batch : Batch) (round : List Nat) (reply : Reply) :
    Except TransportError (Nat × Batch) :=
  match batch.purpose with
  | .get => (reply.as BatchGetReply).map (batch.receiveItems round)
  | .put | .delete => (reply.as BatchWriteReply).map (batch.receiveWrites round)

/-- What the requests of a batch are sent for. -/
def Purpose.activity : Purpose → Activity
  | .get => .batchGet
  | .put | .delete => .batchWrite

/-- What follows the reply to the request for a round. -/
def follow (config : Config) (stalled : Nat) (round : List Nat) (sent : Batch) (reply : Reply) :
    Next Running (Except Error Unit × Batch) :=
  match sent.receive round reply with
  | .ok taken => afterRound config stalled taken
  | .error cause => .done (.error (.transport sent.purpose.activity cause), sent)

theorem send_eq (config : Config) (batch : Batch) (stalled : Nat) (round : List Nat) :
    send config batch stalled round =
      .ask ((batch.countAttempt round).requestFor round)
        (follow config stalled round (batch.countAttempt round)) := by
  have hsent : (batch.countAttempt round).purpose = batch.purpose := rfl
  unfold send requestFor
  simp only [hsent]
  cases hpurpose : batch.purpose with
  | get =>
    refine congrArg (Exchange.ask _) (funext fun reply => ?_)
    simp only [follow, receive, hsent, hpurpose]
    cases reply.as BatchGetReply <;> rfl
  | put | delete =>
    refine congrArg (Exchange.ask _) (funext fun reply => ?_)
    simp only [follow, receive, hsent, hpurpose]
    cases reply.as BatchWriteReply <;> rfl

/-- A batch that can run asks for its next round while slots are pending that a round may have, and
    ends then. -/
theorem run_eq_ite (config : Config) (stalled : Nat) (hfault : batch.fault? = none) :
    let size := roundSize config batch.purpose
    run config ⟨batch, stalled⟩ =
      if batch.pending = [] ∨ batch.round size = [] then .done (.done batch.finish)
      else .ask ((batch.sent size).requestFor (batch.round size))
        (follow config stalled (batch.round size) (batch.sent size)) := by
  intro size
  unfold run
  simp only [hfault, List.isEmpty_iff]
  by_cases hpending : batch.pending = []
  · rw [if_pos hpending, if_pos (Or.inl hpending)]
  · rw [if_neg hpending]
    by_cases hround : batch.round size = []
    · rw [if_pos (Or.inr hround)]
      exact if_pos hround
    · rw [if_neg (not_or.mpr ⟨hpending, hround⟩)]
      exact (if_neg hround).trans (send_eq config _ stalled _)

/-! ## Replies -/

/-- What a reply is followed by: the batch goes on, at once or after a pause, or it gives up. -/
theorem afterRound_cases (config : Config) (stalled settled : Nat) (after : Batch) :
    (0 < settled ∧ afterRound config stalled (settled, after) = .again ⟨after, 0⟩) ∨
    (settled = 0 ∧ stalled + 1 ≤ config.maxBatchRetries.toNat ∧
      afterRound config stalled (settled, after) =
        .after (config.backoff (stalled + 1)) ⟨after, stalled + 1⟩) ∨
    (settled = 0 ∧ config.maxBatchRetries.toNat < stalled + 1 ∧
      afterRound config stalled (settled, after) = .done after.finish) := by
  simp only [afterRound]
  split_ifs with hsettled hretries
  · exact Or.inl ⟨hsettled, rfl⟩
  · exact Or.inr (Or.inr ⟨by omega, hretries, rfl⟩)
  · exact Or.inr (Or.inl ⟨by omega, by omega, rfl⟩)

/-- After a round the batch goes on, or it ends. -/
theorem afterRound_goes_or_ends (config : Config) (stalled settled : Nat) (after : Batch) :
    (∃ stalled', (afterRound config stalled (settled, after)).state? = some ⟨after, stalled'⟩) ∨
      afterRound config stalled (settled, after) = .done after.finish := by
  rcases afterRound_cases config stalled settled after with
    ⟨-, hgoes⟩ | ⟨-, -, hgoes⟩ | ⟨-, -, hends⟩
  · exact Or.inl ⟨0, by rw [hgoes]; rfl⟩
  · exact Or.inl ⟨stalled + 1, by rw [hgoes]; rfl⟩
  · exact Or.inr hends

/-! ## Batches that write -/

/-- What follows the reply to a request that writes. -/
def takeReply (config : Config) (stalled : Nat) (round : List Nat) (sent : Batch) (reply : Reply) :
    Next Running (Except Error Unit × Batch) :=
  match reply.as BatchWriteReply with
  | .ok answer => afterRound config stalled (sent.receiveWrites round answer)
  | .error cause => .done (.error (.transport .batchWrite cause), sent)

/-- A batch takes the reply and goes on or ends, or it ends with the failure of the request. -/
theorem takeReply_cases (config : Config) (stalled : Nat) (round : List Nat) (sent : Batch)
    (reply : Reply) :
    (∃ answer, reply.as BatchWriteReply = .ok answer ∧
      ((∃ stalled', (takeReply config stalled round sent reply).state? =
          some ⟨(sent.receiveWrites round answer).2, stalled'⟩) ∨
        takeReply config stalled round sent reply =
          .done (sent.receiveWrites round answer).2.finish)) ∨
    ∃ cause, takeReply config stalled round sent reply =
      .done (.error (.transport .batchWrite cause), sent) := by
  unfold takeReply
  cases reply.as BatchWriteReply with
  | error cause => exact Or.inr ⟨cause, rfl⟩
  | ok answer =>
    exact Or.inl ⟨answer, rfl, afterRound_goes_or_ends config stalled _ _⟩

theorem requestFor_of_ne_get (hpurpose : batch.purpose ≠ .get) (round : List Nat) :
    batch.requestFor round = .batchWrite (batch.writeInput round) := by
  unfold requestFor
  cases hp : batch.purpose with
  | get => exact absurd hp hpurpose
  | put | delete => rfl

theorem follow_of_ne_get (config : Config) (stalled : Nat) (round : List Nat)
    (hpurpose : batch.purpose ≠ .get) :
    follow config stalled round batch = takeReply config stalled round batch := by
  funext reply
  unfold follow receive takeReply
  cases hp : batch.purpose with
  | get => exact absurd hp hpurpose
  | put | delete => cases reply.as BatchWriteReply <;> rfl

/-- A batch that writes asks for nothing at its end, and for its next round before. -/
theorem run_cases (config : Config) (stalled : Nat) (hfault : batch.fault? = none)
    (hpurpose : batch.purpose ≠ .get) :
    run config ⟨batch, stalled⟩ = .done (.done batch.finish) ∨
      let size := roundSize config batch.purpose
      run config ⟨batch, stalled⟩ =
        .ask (.batchWrite ((batch.sent size).writeInput (batch.round size)))
          (takeReply config stalled (batch.round size) (batch.sent size)) := by
  rw [run_eq_ite config stalled hfault]
  split_ifs
  · exact Or.inl rfl
  · right
    have hsent : (batch.sent (roundSize config batch.purpose)).purpose ≠ .get := hpurpose
    rw [requestFor_of_ne_get hsent, follow_of_ne_get config stalled _ hsent]

/-- What a turn of a batch that writes does. -/
theorem turn_run (hfault : batch.fault? = none) (hpurpose : batch.purpose ≠ .get)
    (h : Turn serve (run config) ⟨batch, stalled⟩ store requests next store') :
    (requests = [] ∧ next = .done batch.finish ∧ store' = store) ∨
    let size := roundSize config batch.purpose
    let request : Request := .batchWrite ((batch.sent size).writeInput (batch.round size))
    ∃ reply, requests = [request] ∧ serve store request reply store' ∧
      next = takeReply config stalled (batch.round size) (batch.sent size) reply := by
  rcases run_cases config stalled hfault hpurpose with hrun | hrun
  · left
    cases h with
    | silent h =>
      cases hrun.symm.trans h
      exact ⟨rfl, rfl, rfl⟩
    | answered h _ => cases hrun.symm.trans h
  · right
    cases h with
    | silent h => cases hrun.symm.trans h
    | answered h hserve =>
      cases hrun.symm.trans h
      exact ⟨_, rfl, hserve, rfl⟩

/-- The batches that a run goes through are those that its rounds lead to. -/
theorem Reached.turn {purpose : Purpose} {consistent : Bool} {orders : List Order}
    (hreached : Reached purpose consistent orders batch) (hpurpose : purpose ≠ .get)
    (h : Turn serve (run config) ⟨batch, stalled⟩ store requests next store') {state : Running}
    (hnext : next.state? = some state) : Reached purpose consistent orders state.batch := by
  obtain ⟨rfl, hfault⟩ := hreached.frame
  rcases turn_run hfault hpurpose h with ⟨-, rfl, -⟩ | ⟨reply, -, -, rfl⟩
  · cases hnext
  · rcases takeReply_cases config stalled _ _ reply with
      ⟨answer, -, hgoes | hends⟩ | ⟨cause, hfails⟩
    · obtain ⟨stalled', hgoes⟩ := hgoes
      obtain rfl := Option.some.inj (hgoes.symm.trans hnext)
      exact hreached.round (roundSize config batch.purpose) answer
    · rw [hends] at hnext
      cases hnext
    · rw [hfails] at hnext
      cases hnext

end TableClient.Batch
