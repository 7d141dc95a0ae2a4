import Mathlib
import TableClient.Proofs.Batch.Course

/-!
# How long a batch runs

A round either settles a slot, or it is one more of the rounds just ended that settled nothing. A
batch stands only so many of these one after another, and it has only so many slots to settle, which
bounds the number of its requests. How long it pauses depends on the rounds just ended only.

Results:
* `backoff_eq`: the pause doubles with each round that settles nothing, up to the greatest pause.
* `Paced.of_passes`: the requests that a batch has left.
* `run_ends_paced`: a batch ends on every script of replies, within a number of requests, and
  what it pauses and when it gives up.
-/

namespace TableClient.Batch

/-! ## Pauses -/

/-- The pause doubles with each round that settles nothing, up to the greatest pause. -/
theorem backoff_eq (config : Config) (rounds : Nat) :
    config.backoff rounds = min (config.retryBackoff.toNat * 2 ^ (rounds - 1)) maxBackoff := by
  rw [Config.backoff, Nat.shiftLeft_eq]
  by_cases hle : rounds - 1 ≤ 16
  · rw [Nat.min_eq_left hle]
  · -- the pause does not double any more, but it is the greatest one already
    have hmost : min (rounds - 1) 16 = 16 := Nat.min_eq_right (by omega)
    rw [hmost]
    rcases Nat.eq_zero_or_pos config.retryBackoff.toNat with hzero | hpos
    · simp [hzero]
    · have hgreatest : ∀ exponent, 16 ≤ exponent →
          maxBackoff ≤ config.retryBackoff.toNat * 2 ^ exponent := fun exponent hexponent =>
        calc maxBackoff ≤ 1 * 2 ^ 16 := by decide
          _ ≤ config.retryBackoff.toNat * 2 ^ exponent :=
            Nat.mul_le_mul hpos (Nat.pow_le_pow_right (by decide) hexponent)
      rw [Nat.min_eq_right (hgreatest 16 le_rfl), Nat.min_eq_right (hgreatest _ (by omega))]

/-! ## Rounds that settle nothing -/

/-- How many of the rounds just ended have settled nothing, by the slots that are pending now. The
    exchanges are given from the last one back. -/
def stalls : List (Exchanged Running) → List Nat → Nat
  | [], _ => 0
  | last :: earlier, pending =>
    if last.state.batch.pending = pending then stalls earlier pending + 1 else 0

section Receive

variable {size : Nat} {batch after : Batch} {reply : Reply} {settled : Nat}

/-- As many slots are no longer pending as a reply settles. -/
theorem Sound.pending_receive (h : Sound batch [])
    (hreceive : (batch.sent size).receive (batch.round size) reply = .ok (settled, after)) :
    after.pending.length + settled = batch.pending.length ∧
      (settled = 0 ↔ batch.pending = after.pending) := by
  obtain ⟨again, hsettles, rfl⟩ := settles_receive hreceive
  have hlength := (h.sent size).length_settles hsettles
  rw [pending_sent] at hlength
  refine ⟨hlength, fun hzero => ?_, fun heq => ?_⟩
  · have hsublist : after.pending.Sublist batch.pending := by
      rw [hsettles.pending, pending_sent]
      exact List.filter_sublist
    exact (hsublist.eq_of_length (by omega)).symm
  · rw [heq] at hlength
    omega

/-- A round that settles nothing is one more of the rounds just ended that settled nothing. -/
theorem Sound.stalls_receive (h : Sound batch [])
    (hreceive : (batch.sent size).receive (batch.round size) reply = .ok (settled, after))
    (exchanges : List (Exchanged Running)) {last : Exchanged Running}
    (hlast : last.state.batch = batch) :
    stalls (exchanges ++ [last]).reverse after.pending =
      if settled = 0 then stalls exchanges.reverse batch.pending + 1 else 0 := by
  obtain ⟨-, hsame⟩ := h.pending_receive hreceive
  rw [List.reverse_append, List.reverse_singleton, List.singleton_append, stalls, hlast]
  by_cases hzero : settled = 0
  · rw [if_pos hzero, if_pos (hsame.mp hzero), hsame.mp hzero]
  · rw [if_neg hzero, if_neg fun heq => hzero (hsame.mpr heq)]

end Receive

/-! ## Requests that are left -/

/-- The rounds just ended that settled nothing are counted and are not too many, and for every slot
    that is pending there are as many requests left as the batch stands rounds of that kind. Once
    nothing is pending, the last round has settled a slot. -/
structure Paced (config : Config) (start : Batch) (exchanges : List (Exchanged Running))
    (state : Running) : Prop where
  stalled : state.stalled = stalls exchanges.reverse state.batch.pending
  le_retries : state.stalled ≤ config.maxBatchRetries.toNat
  budget : exchanges.length + state.batch.pending.length * (config.maxBatchRetries.toNat + 1) ≤
    start.pending.length * (config.maxBatchRetries.toNat + 1) + state.stalled
  idle : state.batch.pending = [] → state.stalled = 0

section Paced

variable {config : Config} {start after : Batch} {exchanges : List (Exchanged Running)}
  {state : Running}

/-- One more round is within the requests that are left, and the pause behind it is the one for the
    rounds just ended. -/
theorem Paced.round (h : Paced config start exchanges state) (hsound : Sound state.batch [])
    (hpending : state.batch.pending ≠ []) {size : Nat} {reply : Reply} {settled : Nat}
    (hreceive : (state.batch.sent size).receive (state.batch.round size) reply =
      .ok (settled, after))
    {next : Next Running (Except Error Unit × Batch)}
    (hnext : next = afterRound config state.stalled (settled, after)) {state' : Running}
    (hstate : next.state? = some state') (request : Request) :
    let last : Exchanged Running := ⟨state, request, reply, next.pause⟩
    Paced config start (exchanges ++ [last]) state' ∧
      next.pause = if state'.stalled = 0 then 0
        else min (config.retryBackoff.toNat * 2 ^ (state'.stalled - 1)) maxBackoff := by
  intro last
  obtain ⟨hlength, hsame⟩ := hsound.pending_receive hreceive
  have hstalls := hsound.stalls_receive hreceive exchanges (show last.state.batch = _ from rfl)
  have hretries := h.le_retries
  have hbudget := h.budget
  have hexchanges : (exchanges ++ [last]).length = exchanges.length + 1 := List.length_append
  rcases afterRound_cases config state.stalled settled after with
    ⟨hsettled, hafter⟩ | ⟨rfl, hless, hafter⟩ | ⟨-, -, hafter⟩
  · obtain rfl : next = .again ⟨after, 0⟩ := hnext.trans hafter
    obtain rfl := Option.some.inj hstate
    refine ⟨⟨?_, Nat.zero_le _, ?_, fun _ => rfl⟩, rfl⟩
    · rw [hstalls, if_neg (by omega)]
    · -- a slot is settled: the requests for it make up for those that settled nothing
      have hpending : (after.pending.length + 1) * (config.maxBatchRetries.toNat + 1) ≤
          state.batch.pending.length * (config.maxBatchRetries.toNat + 1) :=
        Nat.mul_le_mul_right _ (by omega)
      rw [Nat.add_mul, Nat.one_mul] at hpending
      simp only [hexchanges]
      omega
  · obtain rfl : next = .after (config.backoff (state.stalled + 1)) ⟨after, state.stalled + 1⟩ :=
      hnext.trans hafter
    obtain rfl := Option.some.inj hstate
    refine ⟨⟨?_, hless, ?_, fun hnone => ?_⟩, backoff_eq config (state.stalled + 1)⟩
    · rw [hstalls, if_pos rfl, h.stalled]
    · simp only [hexchanges, ← hlength, Nat.add_zero] at hbudget ⊢
      omega
    · exact absurd ((hsame.mp rfl).trans hnone) hpending
  · rw [hnext, hafter] at hstate
    cases hstate

/-- A batch that goes on has requests left, and has paused for the rounds just ended. -/
theorem Paced.of_passes (hstart : Sound start []) (hfault : start.fault? = none)
    (h : Passes (run config) ⟨start, 0⟩ exchanges state) :
    Paced config start exchanges state ∧ ∀ last ∈ exchanges.getLast?, last.pause =
      if state.stalled = 0 then 0
        else min (config.retryBackoff.toNat * 2 ^ (state.stalled - 1)) maxBackoff := by
  induction h with
  | start => exact ⟨⟨rfl, Nat.zero_le _, by simp, fun _ => rfl⟩, by simp⟩
  | @step exchanges state state' request receive h hask reply hnext ih =>
    have hcourse := Course.of_passes hstart hfault h
    obtain ⟨hpending, rfl, rfl⟩ := hcourse.of_ask hstart hfault rfl hask
    rcases follow_cases config state.stalled _ _ reply with
      ⟨settled, after, hreceive, hfollow, -⟩ | ⟨cause, -, hfails⟩
    · obtain ⟨hpaced, hpause⟩ :=
        ih.1.round (hcourse.sound hstart) hpending hreceive hfollow hnext _
      refine ⟨hpaced, fun last hlast => ?_⟩
      rw [List.getLast?_concat, Option.mem_some_iff] at hlast
      exact hlast ▸ hpause
    · rw [hfails] at hnext
      cases hnext

/-- While slots are pending, the next request is within the bound. -/
theorem Paced.length_lt (h : Paced config start exchanges state)
    (hpending : state.batch.pending ≠ []) :
    exchanges.length < start.pending.length * (config.maxBatchRetries.toNat + 1) := by
  have hbudget := h.budget
  have hretries := h.le_retries
  have hpos := List.length_pos_iff.mpr hpending
  have hone : 1 * (config.maxBatchRetries.toNat + 1) ≤
      state.batch.pending.length * (config.maxBatchRetries.toNat + 1) :=
    Nat.mul_le_mul_right _ hpos
  omega

/-- Once nothing is pending, no request was beyond the bound. -/
theorem Paced.length_le (h : Paced config start exchanges state)
    (hpending : state.batch.pending = []) :
    exchanges.length ≤ start.pending.length * (config.maxBatchRetries.toNat + 1) := by
  have hbudget := h.budget
  rw [hpending, h.idle hpending] at hbudget
  simpa using hbudget

end Paced

/-! ## Runs -/

section Run

variable {config : Config} {start after : Batch} {exchanges : List (Exchanged Running)}
  {outcome : Except Error Unit}

/-- No run sends more requests than the bound. -/
theorem length_of_ends (hstart : Sound start []) (hfault : start.fault? = none)
    {result : Except Error Unit × Batch} (h : Ends (run config) ⟨start, 0⟩ exchanges result) :
    exchanges.length ≤ start.pending.length * (config.maxBatchRetries.toNat + 1) := by
  cases h with
  | silent h hdone =>
    have hpaced := (Paced.of_passes hstart hfault h).1
    exact hpaced.length_le ((Course.of_passes hstart hfault h).of_done hstart hfault hdone).1
  | answered h hask reply hdone =>
    have hpaced := (Paced.of_passes hstart hfault h).1
    have hcourse := Course.of_passes hstart hfault h
    rw [List.length_append, List.length_singleton]
    exact hpaced.length_lt (hcourse.of_ask hstart hfault rfl hask).1

/-- A batch ends on every script of replies. -/
theorem exists_ends (config : Config) (hstart : Sound start []) (hfault : start.fault? = none)
    (script : Nat → Reply) :
    ∃ exchanges result, Ends (run config) ⟨start, 0⟩ exchanges result ∧
      Follows script exchanges := by
  rcases Ends.follows_or (fun _ _ => exists_of_run_eq_done) script
      (start.pending.length * (config.maxBatchRetries.toNat + 1)) with
    ⟨exchanges, result, hends, hfollows, -⟩ | ⟨exchanges, state, hpasses, hfollows, hlength⟩
  · exact ⟨exchanges, result, hends, hfollows⟩
  · -- all requests have been sent, so that nothing is pending and the batch ends
    have hcourse := Course.of_passes hstart hfault hpasses
    have hpending : state.batch.pending = [] := by
      by_contra hpending
      have hlt := (Paced.of_passes hstart hfault hpasses).1.length_lt hpending
      omega
    have hrun := (hcourse.sound hstart).run_eq config state.stalled
      (hcourse.keeps.fault?.trans hfault) rfl
    rw [if_pos hpending] at hrun
    exact ⟨exchanges, _, .silent hpasses hrun, hfollows⟩

/-- A batch that ends with slots that are pending, and with no failure of a request, has stood all
    the rounds that it may, and one more. -/
theorem stalls_of_ends (hstart : Sound start []) (hfault : start.fault? = none)
    (h : Ends (run config) ⟨start, 0⟩ exchanges (outcome, after))
    (houtcome : outcome = .ok () ∨ outcome = .error (.batch after.report))
    (hpending : after.pending ≠ []) :
    stalls exchanges.reverse after.pending = config.maxBatchRetries.toNat + 1 := by
  cases h with
  | @silent exchanges state result h hdone =>
    obtain ⟨hnone, hresult⟩ := (Course.of_passes hstart hfault h).of_done hstart hfault hdone
    cases hresult
    exact absurd ((fills_finish state.batch).pending.trans hnone) hpending
  | @answered exchanges state request receive result h hask reply hdone =>
    have hcourse := Course.of_passes hstart hfault h
    have hpaced := (Paced.of_passes hstart hfault h).1
    have hretries := hpaced.le_retries
    obtain ⟨-, rfl, rfl⟩ := hcourse.of_ask hstart hfault rfl hask
    rcases follow_cases config state.stalled _ _ reply with
      ⟨settled, last, hreceive, hfollow, -⟩ | ⟨cause, -, hfails⟩
    · rw [hdone] at hfollow
      rcases afterRound_cases config state.stalled settled last with
        ⟨-, hafter⟩ | ⟨-, -, hafter⟩ | ⟨rfl, hmore, hafter⟩
      · cases hfollow.trans hafter
      · cases hfollow.trans hafter
      · have hresult := Next.done.inj (hfollow.trans hafter)
        obtain rfl : after = last.finish.2 := congrArg Prod.snd hresult
        rw [(fills_finish last).pending,
          (hcourse.sound hstart).stalls_receive hreceive exchanges rfl, if_pos rfl,
          ← hpaced.stalled]
        omega
    · cases hdone.symm.trans hfails
      rcases houtcome with houtcome | houtcome <;> cases houtcome

end Run

/-- Whatever orders a batch is made of, it ends on every script of replies, and sends no more
    requests than its slots times the rounds without progress that it stands and one. It pauses
    between two requests only if the rounds just ended settled nothing, and the longer the more of
    them there are. It stands no more of them than it may, and gives up at the next one. -/
theorem run_ends_paced (config : Config) (purpose : Purpose) (consistent : Bool)
    (orders : List Order) :
    let start := ofOrders purpose consistent orders
    let retries := config.maxBatchRetries.toNat
    (∀ script : Nat → Reply, ∃ exchanges result,
      Ends (run config) ⟨start, 0⟩ exchanges result ∧ Follows script exchanges) ∧
    (∀ exchanges result, Ends (run config) ⟨start, 0⟩ exchanges result →
      exchanges.length ≤ start.slots.length * (retries + 1)) ∧
    (∀ exchanges last state, Passes (run config) ⟨start, 0⟩ (exchanges ++ [last]) state →
      let idle := stalls (exchanges ++ [last]).reverse state.batch.pending
      idle ≤ retries ∧ last.pause =
        if idle = 0 then 0 else min (config.retryBackoff.toNat * 2 ^ (idle - 1)) 2000) ∧
    (∀ exchanges outcome after, Ends (run config) ⟨start, 0⟩ exchanges (outcome, after) →
      outcome = .ok () ∨ outcome = .error (.batch after.report) → after.pending ≠ [] →
        stalls exchanges.reverse after.pending = retries + 1) := by
  intro start retries
  rcases ofOrders_cases purpose consistent orders with ⟨-, hregistered⟩ | ⟨-, table, hfault⟩
  · have hstart : Sound start [] := hregistered.sound
    have hfault : start.fault? = none := hregistered.frame.2.1
    have hslots : start.pending.length = start.slots.length := by
      rw [hregistered.filed.pending_eq, List.length_range]
    refine ⟨exists_ends config hstart hfault, ?_, ?_, ?_⟩
    · intro exchanges result hends
      exact hslots ▸ length_of_ends hstart hfault hends
    · intro exchanges last state hpasses idle
      obtain ⟨hpaced, hpause⟩ := Paced.of_passes hstart hfault hpasses
      have hidle : idle = state.stalled := hpaced.stalled.symm
      rw [hidle]
      exact ⟨hpaced.le_retries, hpause last (by simp)⟩
    · intro exchanges outcome after hends houtcome hpending
      exact stalls_of_ends hstart hfault hends houtcome hpending
  · refine ⟨fun script => ⟨[], _, .silent .start (run_of_fault config 0 hfault), follows_nil _⟩,
      ?_, ?_, ?_⟩
    · intro exchanges result hends
      obtain ⟨rfl, -⟩ := ends_of_fault hfault hends
      exact Nat.zero_le _
    · intro exchanges last state hpasses
      obtain ⟨hnil, -⟩ := passes_of_fault hfault hpasses
      simp at hnil
    · intro exchanges outcome after hends houtcome
      obtain ⟨-, hresult⟩ := ends_of_fault hfault hends
      cases hresult
      rcases houtcome with houtcome | houtcome <;> cases houtcome

/-- Settings under which a batch stands one round without progress. -/
def oneRetry : Config := { maxBatchRetries := 1 }

/-- The reply of a store that leaves both of two items undone. -/
def refusal : Reply :=
  replyWith (⟨[("T", [.put [("id", .string "x")], .put [("id", .string "y")]])]⟩ :
    Protocol.BatchWriteReply)

/-- A batch that stands one round without progress pauses once and then gives up. -/
theorem run_ends_paced_refused :
    ∃ exchanges outcome after,
      Ends (run oneRetry) ⟨ofOrders .put false [declaredItems], 0⟩ exchanges (outcome, after) ∧
      exchanges.length ≤ 4 ∧ exchanges.map Exchanged.pause = [50, 0] ∧
      stalls exchanges.reverse after.pending = 2 := by
  obtain ⟨-, hbound, hpause, hgives⟩ := run_ends_paced oneRetry .put false [declaredItems]
  have hask : run oneRetry ⟨ofOrders .put false [declaredItems], 0⟩ = .ask _ _ := rfl
  obtain ⟨last, state, hpasses, hidle, request, receive, hagain, outcome, after, hdone, houtcome,
      hpending⟩ : ∃ last state,
      Passes (run oneRetry) ⟨ofOrders .put false [declaredItems], 0⟩ [last] state ∧
      stalls [last] state.batch.pending = 1 ∧
      ∃ request receive, run oneRetry state = .ask request receive ∧
      ∃ outcome after, receive refusal = .done (outcome, after) ∧
        outcome = .error (.batch after.report) ∧ after.pending ≠ [] :=
    ⟨_, _, .step .start hask refusal rfl, by decide, _, _, rfl, _, _, rfl, rfl, by decide⟩
  have hends := Ends.answered hpasses hagain refusal hdone
  have hlast := (hpause [] last state hpasses).2
  rw [List.nil_append, List.reverse_singleton, hidle] at hlast
  refine ⟨_, outcome, after, hends, hbound _ _ hends, ?_,
    hgives _ outcome after hends (Or.inr houtcome) hpending⟩
  rw [List.map_append, List.map_singleton, List.map_singleton, hlast]
  rfl

end TableClient.Batch
