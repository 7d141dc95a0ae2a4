import Mathlib
import TableClient.Conversation

/-!
# Conversations that run against a store

A store is given by what it may answer to a request and by how that leaves it. A conversation runs
against it turn by turn: it sends at most one request in a turn, and what is made of the reply says
whether it goes on.

Results:
* `Run.preserves`: what every turn preserves holds at the end of a run.
-/

namespace TableClient

variable {σ α S : Type}

/-- The reply that holds a value. -/
def replyWith {β : Type} [JsonForm β] (value : β) : Reply := .ok (toJson value).settle

/-- The state in which a conversation goes on, if it does. -/
def Next.state? : Next σ α → Option σ
  | .again state => some state
  | .after _ state => some state
  | .done _ => none

/-- One turn of a conversation with the requests it sends: none, or one that the store answers. -/
inductive Turn (serve : S → Request → Reply → S → Prop) (conversation : Conversation σ α)
    (state : σ) (store : S) : List Request → Next σ α → S → Prop
  | silent {next : Next σ α} (h : conversation state = .done next) :
      Turn serve conversation state store [] next store
  | answered {request : Request} {receive : Reply → Next σ α} {reply : Reply} {store' : S}
      (h : conversation state = .ask request receive) (hserve : serve store request reply store') :
      Turn serve conversation state store [request] (receive reply) store'

/-- A run of a conversation to its end, with the requests it sends and what becomes of the store. -/
inductive Run (serve : S → Request → Reply → S → Prop) (conversation : Conversation σ α) :
    σ → S → List Request → α → S → Prop
  | last {state : σ} {store store' : S} {requests : List Request} {result : α}
      (h : Turn serve conversation state store requests (.done result) store') :
      Run serve conversation state store requests result store'
  | turn {state state' : σ} {store store' store'' : S} {requests more : List Request}
      {next : Next σ α} {result : α}
      (h : Turn serve conversation state store requests next store')
      (hnext : next.state? = some state')
      (hrun : Run serve conversation state' store' more result store'') :
      Run serve conversation state store (requests ++ more) result store''

/-- What every turn preserves of the requests sent, the state and the store holds before the last
    turn of a run; what the last turn makes of it holds at the end. -/
theorem Run.preserves {serve : S → Request → Reply → S → Prop} {conversation : Conversation σ α}
    (holds : List Request → σ → S → Prop) (post : List Request → α → S → Prop)
    (hturn : ∀ {sent state store requests next store' state'}, holds sent state store →
      Turn serve conversation state store requests next store' → next.state? = some state' →
        holds (sent ++ requests) state' store')
    (hlast : ∀ {sent state store requests result store'}, holds sent state store →
      Turn serve conversation state store requests (.done result) store' →
        post (sent ++ requests) result store')
    {sent : List Request} {state : σ} {store : S} (hstart : holds sent state store)
    {requests : List Request} {result : α} {store' : S}
    (h : Run serve conversation state store requests result store') :
    post (sent ++ requests) result store' := by
  induction h generalizing sent with
  | last h => exact hlast hstart h
  | turn h hnext hrun ih =>
    rw [← List.append_assoc]
    exact ih (hturn hstart h hnext)

end TableClient
