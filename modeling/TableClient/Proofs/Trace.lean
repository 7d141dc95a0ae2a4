import Mathlib
import TableClient.Proofs.Conversation

/-!
# What passes between a conversation and the store

A conversation that asks for something in each of its states sends its requests one by one. What
passes is written down exchange by exchange: the state that sent the request, the reply, and the
pause before the conversation goes on. The replies may be anything, so a property of every trace is
a property for every store.

Results:
* `Ends.follows_or`: a conversation ends, or it goes on for any number of replies.
-/

namespace TableClient

variable {σ α : Type}

/-- The milliseconds before a conversation goes on. -/
def Next.pause : Next σ α → Nat
  | .again _ => 0
  | .after milliseconds _ => milliseconds
  | .done _ => 0

/-- A request with the state that sent it, its reply, and the pause behind the reply. -/
structure Exchanged (σ : Type) where
  state : σ
  request : Request
  reply : Reply
  /-- The milliseconds between the reply and what follows. -/
  pause : Nat

/-- The state that a conversation is in after some exchanges. -/
inductive Passes (conversation : Conversation σ α) (start : σ) : List (Exchanged σ) → σ → Prop
  | start : Passes conversation start [] start
  | step {exchanges : List (Exchanged σ)} {state state' : σ} {request : Request}
      {receive : Reply → Next σ α} (h : Passes conversation start exchanges state)
      (hask : conversation state = .ask request receive) (reply : Reply)
      (hnext : (receive reply).state? = some state') :
      Passes conversation start
        (exchanges ++ [⟨state, request, reply, (receive reply).pause⟩]) state'

/-- The result that a conversation ends with after some exchanges. -/
inductive Ends (conversation : Conversation σ α) (start : σ) : List (Exchanged σ) → α → Prop
  | silent {exchanges : List (Exchanged σ)} {state : σ} {result : α}
      (h : Passes conversation start exchanges state)
      (hdone : conversation state = .done (.done result)) :
      Ends conversation start exchanges result
  | answered {exchanges : List (Exchanged σ)} {state : σ} {request : Request}
      {receive : Reply → Next σ α} {result : α} (h : Passes conversation start exchanges state)
      (hask : conversation state = .ask request receive) (reply : Reply)
      (hdone : receive reply = .done result) :
      Ends conversation start (exchanges ++ [⟨state, request, reply, 0⟩]) result

/-- The replies are those of a script, in order. -/
def Follows (script : Nat → Reply) (exchanges : List (Exchanged σ)) : Prop :=
  exchanges.map Exchanged.reply = (List.range exchanges.length).map script

theorem follows_nil (script : Nat → Reply) : Follows script ([] : List (Exchanged σ)) := rfl

theorem Follows.append {script : Nat → Reply} {exchanges : List (Exchanged σ)}
    (h : Follows script exchanges) (state : σ) (request : Request) (pause : Nat) :
    Follows script (exchanges ++ [⟨state, request, script exchanges.length, pause⟩]) := by
  rw [Follows, List.map_append, h, List.length_append, List.length_singleton, List.range_succ,
    List.map_append]
  rfl

/-- On every script of replies, a conversation that ends whenever it asks for nothing has ended
    after at most `n` exchanges, or it goes on after `n` of them. -/
theorem Ends.follows_or {conversation : Conversation σ α} {start : σ}
    (hsilent : ∀ state next, conversation state = .done next → ∃ result, next = .done result)
    (script : Nat → Reply) (n : Nat) :
    (∃ exchanges result, Ends conversation start exchanges result ∧ Follows script exchanges ∧
      exchanges.length ≤ n) ∨
    ∃ exchanges state, Passes conversation start exchanges state ∧ Follows script exchanges ∧
      exchanges.length = n := by
  induction n with
  | zero => exact Or.inr ⟨[], start, .start, follows_nil script, rfl⟩
  | succ n ih =>
    rcases ih with ⟨exchanges, result, hends, hfollows, hle⟩ |
      ⟨exchanges, state, hpasses, hfollows, rfl⟩
    · exact Or.inl ⟨exchanges, result, hends, hfollows, by omega⟩
    · cases hstate : conversation state with
      | done next =>
        obtain ⟨result, rfl⟩ := hsilent state next hstate
        exact Or.inl ⟨exchanges, result, .silent hpasses hstate, hfollows, by omega⟩
      | ask request receive =>
        -- the next reply of the script ends the conversation or takes it on
        let reply := script exchanges.length
        have hlength : ∀ pause : Nat,
            (exchanges ++ [(⟨state, request, reply, pause⟩ : Exchanged σ)]).length =
              exchanges.length + 1 := fun _ => List.length_append
        cases hnext : receive reply with
        | done result =>
          exact Or.inl ⟨_, result, .answered hpasses hstate reply hnext,
            hfollows.append state request 0, (hlength 0).le⟩
        | again state' =>
          have hstep := hpasses.step hstate reply (by rw [hnext]; rfl)
          exact Or.inr ⟨_, state', hstep, hfollows.append state request _, hlength _⟩
        | after milliseconds state' =>
          have hstep := hpasses.step hstate reply (by rw [hnext]; rfl)
          exact Or.inr ⟨_, state', hstep, hfollows.append state request _, hlength _⟩

end TableClient
