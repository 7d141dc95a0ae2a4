import Mathlib
import TableClient.Proofs.Batch.Collect
import TableClient.Proofs.Batch.Delivery
import TableClient.Proofs.Trace

/-!
# The course of a batch

While slots are pending, a batch sends the request for a round and takes the reply; a request that
fails ends it at once. The course of a batch are the rounds that it has been through, whether the
last of them ended it or not.

Results:
* `settles_receive`: what a reply settles, whatever the batch is for.
* `Sound.run_eq`: what a batch asks for.
* `Course.sound`: the slots are in step all along.
* `Course.of_passes`, `Course.of_ends`: a run follows a course, unless a request fails.
-/

namespace TableClient.Batch

open Protocol (BatchGetReply BatchWriteReply)

/-! ## Replies -/

section Reply

variable {batch after : Batch} {round : List Nat} {reply : Reply} {settled : Nat}

/-- A reply is taken as one to a request that reads or as one to a request that writes. -/
theorem receive_cases (h : batch.receive round reply = .ok (settled, after)) :
    (batch.purpose = .get ∧ ∃ answer, reply.as BatchGetReply = .ok answer ∧
      batch.receiveItems round answer = (settled, after)) ∨
    batch.purpose ≠ .get ∧ ∃ answer, reply.as BatchWriteReply = .ok answer ∧
      batch.receiveWrites round answer = (settled, after) := by
  unfold receive at h
  cases hpurpose : batch.purpose with
  | get =>
    rw [hpurpose] at h
    cases hreply : reply.as BatchGetReply with
    | error cause =>
      rw [hreply] at h
      cases h
    | ok answer =>
      rw [hreply] at h
      exact Or.inl ⟨rfl, answer, rfl, Except.ok.inj h⟩
  | put | delete =>
    rw [hpurpose] at h
    cases hreply : reply.as BatchWriteReply with
    | error cause =>
      rw [hreply] at h
      cases h
    | ok answer =>
      rw [hreply] at h
      exact Or.inr ⟨by decide, answer, rfl, Except.ok.inj h⟩

/-- A batch that reads takes a reply as one that brings items. -/
theorem receive_of_get (hpurpose : batch.purpose = .get)
    (h : batch.receive round reply = .ok (settled, after)) :
    ∃ answer, reply.as BatchGetReply = .ok answer ∧
      (batch.receiveItems round answer).2 = after := by
  rcases receive_cases h with ⟨-, answer, hanswer, hreceive⟩ | ⟨hwrites, -⟩
  · exact ⟨answer, hanswer, congrArg Prod.snd hreceive⟩
  · exact absurd hpurpose hwrites

/-- A reply settles the slots of a round but for those that wait for another try. -/
theorem settles_receive (h : batch.receive round reply = .ok (settled, after)) :
    ∃ again, Settles round again batch after ∧
      settled = (round.filter fun id => !again id).length := by
  rcases receive_cases h with ⟨-, answer, -, hreceive⟩ | ⟨-, answer, -, hreceive⟩
  · have hsettled := fst_receiveItems batch round answer
    have hsettles := settles_receiveItems batch round answer
    rw [hreceive] at hsettled hsettles
    exact ⟨_, hsettles, hsettled⟩
  · have hsettles := settles_receiveWrites batch round answer
    rw [hreceive] at hsettles
    rw [receiveWrites_eq] at hreceive
    exact ⟨_, hsettles, (congrArg Prod.fst hreceive).symm⟩

end Reply

theorem roundSize_pos (config : Config) (purpose : Purpose) : 0 < roundSize config purpose := by
  cases purpose <;> exact Nat.le_max_left 1 _

section Sound

variable {batch : Batch}

theorem Sound.queue_ne_nil (h : Sound batch []) (hpending : batch.pending ≠ []) :
    batch.queue ≠ [] := by
  intro hqueue
  have hperm := h.queue_perm
  rw [hqueue] at hperm
  exact hpending hperm.symm.eq_nil

/-- A batch that can run asks for its next round while slots are pending, and ends then. -/
theorem Sound.run_eq (h : Sound batch []) (config : Config) (stalled : Nat)
    (hfault : batch.fault? = none) {size : Nat} (hsize : roundSize config batch.purpose = size) :
    run config ⟨batch, stalled⟩ =
      if batch.pending = [] then .done (.done batch.finish)
      else .ask ((batch.sent size).requestFor (batch.round size))
        (follow config stalled (batch.round size) (batch.sent size)) := by
  subst hsize
  rw [run_eq_ite config stalled hfault]
  by_cases hpending : batch.pending = []
  · rw [if_pos (Or.inl hpending), if_pos hpending]
  · have hround := round_ne_nil (roundSize_pos config batch.purpose) (h.queue_ne_nil hpending)
    rw [if_neg (not_or.mpr ⟨hpending, hround⟩), if_neg hpending]

end Sound

section Fault

variable {config : Config} {start : Batch} {error : Error} {exchanges : List (Exchanged Running)}

theorem run_of_fault (config : Config) (stalled : Nat) (hfault : start.fault? = some error) :
    run config ⟨start, stalled⟩ = .done (.done (.error error, start)) := by
  unfold run
  simp only [hfault]

/-- A batch ends where it asks for nothing. -/
theorem exists_of_run_eq_done {state : Running} {next : Next Running (Except Error Unit × Batch)}
    (h : run config state = .done next) : ∃ result, next = .done result := by
  obtain ⟨batch, stalled⟩ := state
  cases hfault : batch.fault? with
  | some error =>
    cases (run_of_fault config stalled hfault).symm.trans h
    exact ⟨_, rfl⟩
  | none =>
    rw [run_eq_ite config stalled hfault] at h
    split_ifs at h
    cases h
    exact ⟨_, rfl⟩

/-- A batch that cannot run sends nothing. -/
theorem passes_of_fault (hfault : start.fault? = some error) {state : Running}
    (h : Passes (run config) ⟨start, 0⟩ exchanges state) : exchanges = [] ∧ state = ⟨start, 0⟩ := by
  induction h with
  | start => exact ⟨rfl, rfl⟩
  | step h hask reply hnext ih =>
    rw [ih.2, run_of_fault config 0 hfault] at hask
    cases hask

/-- A batch that cannot run ends with its fault. -/
theorem ends_of_fault (hfault : start.fault? = some error) {result : Except Error Unit × Batch}
    (h : Ends (run config) ⟨start, 0⟩ exchanges result) :
    exchanges = [] ∧ result = (.error error, start) := by
  cases h with
  | silent h hdone =>
    obtain ⟨rfl, rfl⟩ := passes_of_fault hfault h
    rw [run_of_fault config 0 hfault] at hdone
    cases hdone
    exact ⟨rfl, rfl⟩
  | answered h hask reply hdone =>
    obtain ⟨-, rfl⟩ := passes_of_fault hfault h
    rw [run_of_fault config 0 hfault] at hask
    cases hask

end Fault

/-! ## Courses -/

/-- The batch after the rounds of some exchanges, each of at most `size` slots. -/
inductive Course (size : Nat) (start : Batch) : List (Exchanged Running) → Batch → Prop
  | start : Course size start [] start
  | round {exchanges : List (Exchanged Running)} {batch after : Batch} {reply : Reply}
      {settled : Nat} (h : Course size start exchanges batch) (stalled pause : Nat)
      (hreceive : (batch.sent size).receive (batch.round size) reply = .ok (settled, after)) :
      Course size start
        (exchanges ++
          [⟨⟨batch, stalled⟩, (batch.sent size).requestFor (batch.round size), reply, pause⟩])
        after

section Course

variable {config : Config} {size : Nat} {start batch after : Batch}
  {exchanges : List (Exchanged Running)} {outcome : Except Error Unit}

theorem Course.keeps (h : Course size start exchanges batch) : Keeps start batch := by
  induction h with
  | start => exact .refl start
  | @round exchanges batch after reply settled h stalled pause hreceive ih =>
    obtain ⟨again, hsettles, -⟩ := settles_receive hreceive
    exact (ih.trans (batch.keeps_sent size)).trans hsettles.keeps

/-- The slots are in step all along. -/
theorem Course.sound (h : Course size start exchanges batch) (hstart : Sound start []) :
    Sound batch [] := by
  induction h with
  | start => exact hstart
  | @round exchanges batch after reply settled h stalled pause hreceive ih =>
    obtain ⟨again, hsettles, -⟩ := settles_receive hreceive
    exact (ih.sent size).settles hsettles

theorem Course.recorded (h : Course size start exchanges batch) :
    start.report.Recorded batch.report := by
  induction h with
  | start => exact .refl
  | round h stalled pause hreceive ih =>
    obtain ⟨again, hsettles, -⟩ := settles_receive hreceive
    exact ih.trans hsettles.recorded

/-- The items of a slot that is pending at the end are reported with what the slot has failed
    with. -/
theorem Course.get?_finish (h : Course size start exchanges batch) {purpose : Purpose}
    {consistent : Bool} {orders : List Order}
    (hregistered : Registered purpose consistent orders start) {id : Nat}
    (hid : id ∈ batch.pending) {table : String} {position : Nat}
    (hheld : start.holdsItem table position id = true) :
    batch.finish.2.report.get? table position = some (batch.leftover id) := by
  rw [← h.keeps.holdsItem_eq] at hheld
  refine get?_finish_of_pending hid hheld fun other _ hother => ?_
  rw [h.keeps.holdsItem_eq] at hheld hother
  exact hregistered.eq_of_holdsItem hother hheld

/-- A batch on its course that asks for something asks for its next round. -/
theorem Course.of_ask (h : Course size start exchanges batch) (hstart : Sound start [])
    (hfault : start.fault? = none) (hsize : roundSize config start.purpose = size) {stalled : Nat}
    {request : Request} {receive : Reply → Next Running (Except Error Unit × Batch)}
    (hask : run config ⟨batch, stalled⟩ = .ask request receive) :
    batch.pending ≠ [] ∧ request = (batch.sent size).requestFor (batch.round size) ∧
      receive = follow config stalled (batch.round size) (batch.sent size) := by
  have hrun := (h.sound hstart).run_eq config stalled (h.keeps.fault?.trans hfault)
    ((congrArg (roundSize config) h.keeps.purpose).trans hsize)
  rw [hask] at hrun
  split_ifs at hrun with hpending
  cases hrun
  exact ⟨hpending, rfl, rfl⟩

/-- A batch on its course that asks for nothing has no slots that are pending, and ends. -/
theorem Course.of_done (h : Course size start exchanges batch) (hstart : Sound start [])
    (hfault : start.fault? = none) {stalled : Nat} {next : Next Running (Except Error Unit × Batch)}
    (hdone : run config ⟨batch, stalled⟩ = .done next) :
    batch.pending = [] ∧ next = .done batch.finish := by
  have hrun := (h.sound hstart).run_eq config stalled (h.keeps.fault?.trans hfault) rfl
  rw [hdone] at hrun
  split_ifs at hrun with hpending
  cases hrun
  exact ⟨hpending, rfl⟩

/-- What follows a reply: the batch after it goes on or ends, or the request has failed. -/
theorem follow_cases (config : Config) (stalled : Nat) (round : List Nat) (sent : Batch)
    (reply : Reply) :
    (∃ settled after, sent.receive round reply = .ok (settled, after) ∧
      follow config stalled round sent reply = afterRound config stalled (settled, after) ∧
      ((∃ stalled', (follow config stalled round sent reply).state? = some ⟨after, stalled'⟩) ∨
        follow config stalled round sent reply = .done after.finish)) ∨
    ∃ cause, sent.receive round reply = .error cause ∧ follow config stalled round sent reply =
      .done (.error (.transport sent.purpose.activity cause), sent) := by
  unfold follow
  cases sent.receive round reply with
  | error cause => exact Or.inr ⟨cause, rfl, rfl⟩
  | ok taken =>
    obtain ⟨settled, after⟩ := taken
    exact Or.inl ⟨settled, after, rfl, rfl, afterRound_goes_or_ends config stalled settled after⟩

/-- A run that goes on follows a course. -/
theorem Course.of_passes (hstart : Sound start []) (hfault : start.fault? = none)
    {state : Running} (h : Passes (run config) ⟨start, 0⟩ exchanges state) :
    Course (roundSize config start.purpose) start exchanges state.batch := by
  induction h with
  | start => exact .start
  | @step exchanges state state' request receive h hask reply hnext ih =>
    obtain ⟨batch, stalled⟩ := state
    obtain ⟨-, rfl, rfl⟩ := ih.of_ask hstart hfault rfl hask
    rcases follow_cases config stalled _ _ reply with
      ⟨settled, after, hreceive, -, ⟨stalled', hgoes⟩ | hends⟩ | ⟨cause, -, hfails⟩
    · obtain rfl := Option.some.inj (hgoes.symm.trans hnext)
      exact ih.round stalled _ hreceive
    · rw [hends] at hnext
      cases hnext
    · rw [hfails] at hnext
      cases hnext

/-- A run that ends has followed a course, or its last request has failed. -/
theorem Course.of_ends (hstart : Sound start []) (hfault : start.fault? = none)
    (h : Ends (run config) ⟨start, 0⟩ exchanges (outcome, after)) :
    (∃ last, Course (roundSize config start.purpose) start exchanges last ∧
      last.finish = (outcome, after)) ∨
    ∃ cause, outcome = .error (.transport start.purpose.activity cause) ∧
      ∃ last ∈ exchanges, ∃ sent round, Keeps start sent ∧
        sent.receive round last.reply = .error cause := by
  cases h with
  | @silent exchanges state result h hdone =>
    have hcourse := Course.of_passes hstart hfault h
    obtain ⟨-, hresult⟩ := hcourse.of_done hstart hfault hdone
    cases hresult
    exact Or.inl ⟨state.batch, hcourse, rfl⟩
  | @answered exchanges state request receive result h hask reply hdone =>
    have hcourse := Course.of_passes hstart hfault h
    obtain ⟨-, rfl, rfl⟩ := hcourse.of_ask hstart hfault rfl hask
    rcases follow_cases config state.stalled _ _ reply with
      ⟨settled, last, hreceive, -, ⟨stalled', hgoes⟩ | hends⟩ | ⟨cause, hreceive, hfails⟩
    · rw [hdone] at hgoes
      cases hgoes
    · cases hends.symm.trans hdone
      exact Or.inl ⟨last, hcourse.round state.stalled 0 hreceive, rfl⟩
    · cases hfails.symm.trans hdone
      have hkeeps := hcourse.keeps.trans
        (state.batch.keeps_sent (roundSize config start.purpose))
      rw [hkeeps.purpose]
      exact Or.inr ⟨cause, rfl, _, List.mem_append_right _ (List.mem_singleton_self _), _, _,
        hkeeps, hreceive⟩

end Course

end TableClient.Batch
