import QpidBroker.Impl.Queue

/-!
# A queue and its consumers

A queue over any container, with the consumers subscribed to it. A
step is one operation on the queue, the dispatch of a message to a
consumer, or a change of what the consumer can accept (its credit).
-/

namespace QB.Spec

open Impl

structure Station (M κ : Type) where
  queue : Queue M
  consumers : List (Consumer κ) := []

namespace Station

inductive Op (κ : Type) where
  | subscribe (type : SubscriptionType) (impl : κ)
  | push (m : Message)
  | release (position : QueueCursor) (markRedelivered : Bool)
  | acquire (position : QueueCursor)
  | dequeue (ctxt : Bool) (cursor : QueueCursor)
  | dequeueCommitted (cursor : QueueCursor)
  | dequeueMessageAt (position : SequenceNumber)
  | reject (cursor : QueueCursor)
  | remove (fuel : Nat) (maxCount : BitVec 32) (predicate : Message → Bool) (type : SubscriptionType)
      (maxTests : BitVec 32)
  | dispatch (k : Nat) (expired : Message → Bool) (fuel : Nat)
  | change (k : Nat) (impl : κ)

variable {M κ : Type} [Messages M] [Subscriber κ]

def step (s : Station M κ) : Op κ → Option (Station M κ)
  | .subscribe type impl =>
    some { s with consumers := s.consumers ++ [⟨s.consumers.length, { type := type }, impl⟩] }
  | .push m => some { s with queue := (s.queue.push m).2.1 }
  | .release position markRedelivered =>
    (s.queue.release position markRedelivered).map fun (q, _) => { s with queue := q }
  | .acquire position => some { s with queue := (s.queue.acquire position).2 }
  | .dequeue ctxt cursor => some { s with queue := s.queue.dequeue ctxt cursor }
  | .dequeueCommitted cursor => some { s with queue := s.queue.dequeueCommitted cursor }
  | .dequeueMessageAt position => some { s with queue := (s.queue.dequeueMessageAt position).2 }
  | .reject cursor => some { s with queue := (s.queue.reject cursor).2 }
  | .remove fuel maxCount predicate type maxTests =>
    (Queue.remove fuel s.queue maxCount predicate type maxTests).map fun (_, q) => { s with queue := q }
  | .dispatch k expired fuel =>
    (s.consumers[k]?).bind fun c =>
      (Queue.getNextMessage expired fuel s.queue c).map fun (_, q, c, _) => ⟨q, s.consumers.set k c⟩
  | .change k impl => some { s with consumers := s.consumers.modify k ({ · with impl := impl }) }

end Station

end QB.Spec
