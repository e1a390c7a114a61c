import Mathlib.Data.List.Basic
import Mathlib.Data.List.Infix

/-!
# An outbox that is emptied in batches

Messages are put at the end of a queue.  A consumer takes all of them as a
batch, sends the batch from the front, and puts what it could not send back in
front of what has come in since.

What was sent, the batch and the queue are together the messages that were ever
put, in order: no step other than a put changes them.
-/

namespace SpatialDb.Lib

structure Outbox (α : Type*) where
  sent : List α
  batch : List α
  queue : List α

namespace Outbox

variable {α : Type*}

/-- All messages, in the order in which they were put. -/
def history (o : Outbox α) : List α := o.sent ++ (o.batch ++ o.queue)

/-- One step, with the messages that it puts. -/
inductive Step : Outbox α → List α → Outbox α → Prop where
  | stay (o) : Step o [] o
  | put (sent batch queue new) : Step ⟨sent, batch, queue⟩ new ⟨sent, batch, queue ++ new⟩
  | take (sent queue) : Step ⟨sent, [], queue⟩ [] ⟨sent, queue, []⟩
  | send (sent a batch queue) : Step ⟨sent, a :: batch, queue⟩ [] ⟨sent ++ [a], batch, queue⟩
  | putBack (sent batch queue) : Step ⟨sent, batch, queue⟩ [] ⟨sent, [], batch ++ queue⟩

theorem Step.history {o o' : Outbox α} {new : List α} (h : Step o new o') :
    o'.history = o.history ++ new := by
  cases h with
  | stay => simp
  | put sent batch queue => simp [Outbox.history]
  | take sent queue => simp [Outbox.history]
  | send sent a batch queue => simp [Outbox.history]
  | putBack sent batch queue => simp [Outbox.history]

theorem sent_isPrefix (o : Outbox α) : o.sent <+: o.history := List.prefix_append _ _

theorem mem_or_mem {o : Outbox α} {a : α} (h : a ∈ o.history) (hsent : a ∉ o.sent) :
    a ∈ o.queue ∨ a ∈ o.batch := by
  rw [Outbox.history, List.mem_append, List.mem_append] at h
  rcases h with h | h | h
  · exact absurd h hsent
  · exact Or.inr h
  · exact Or.inl h

end Outbox

end SpatialDb.Lib
