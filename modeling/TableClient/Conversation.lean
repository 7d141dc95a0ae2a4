import TableClient.Error

/-!
# Conversations with the store

The operations of the client do nothing by themselves: an operation that needs the store says
which request it wants sent and what it makes of the reply. An operation that needs any number of
requests is a `Conversation`: from a state it sends at most one request, and the reply gives the
next state, perhaps after a pause, or the result. Whoever runs it sends the requests, waits out
the pauses, and may stop at any point.

Results:
* `map_answer`: what is made of a result does not change what is asked for.
-/

namespace TableClient

/-- A result, or one request and what is made of its reply. -/
inductive Exchange (α : Type) where
  | done (result : α)
  | ask (request : Request) (receive : Reply → α)

namespace Exchange

variable {α β : Type}

/-- Applies a function to the result. -/
def map (f : α → β) : Exchange α → Exchange β
  | .done result => .done (f result)
  | .ask request receive => .ask request (f ∘ receive)

/-- The request, if there is one. -/
def request? : Exchange α → Option Request
  | .done _ => none
  | .ask request _ => some request

/-- The result when the request, if there is one, gets `reply`. -/
def answer (reply : Reply) : Exchange α → α
  | .done result => result
  | .ask _ receive => receive reply

/-- Asks for a value of a type; a failure is reported with the activity. -/
def call (activity : Activity) (request : Request) (γ : Type) [JsonForm γ]
    (receive : Except Error γ → α) : Exchange α :=
  .ask request fun reply => receive ((reply.as γ).mapError (.transport activity))

/-- What is made of a result does not change what is asked for. -/
theorem map_answer (f : α → β) (exchange : Exchange α) (reply : Reply) :
    (exchange.map f).answer reply = f (exchange.answer reply) ∧
      (exchange.map f).request? = exchange.request? := by
  cases exchange <;> exact ⟨rfl, rfl⟩

end Exchange

/-- What follows a step of a conversation. -/
inductive Next (σ α : Type) where
  /-- The conversation goes on at once. -/
  | again (state : σ)
  /-- The conversation goes on after a number of milliseconds. -/
  | after (milliseconds : Nat) (state : σ)
  /-- The conversation is over. -/
  | done (result : α)

/-- A conversation: what each state asks for, and what follows. -/
abbrev Conversation (σ α : Type) := σ → Exchange (Next σ α)

end TableClient
