import QpidBroker.Framework.Serial
import QpidBroker.Impl.Queue

/-!
# The depth of a queue, accounted for

A queue over a deque, with the transactions that publish to it, and an account
of what was added to its depth: messages the queue holds, and messages
whose place is reserved, since they were admitted (or recovered) and are
neither pushed nor aborted (`reserved`).
-/

namespace QB.Spec

open Impl

/-- A queue, the publications of open transactions, and the messages that were
admitted or recovered but lost to an exception before they were pushed. -/
structure Account where
  queue : Queue MessageDeque
  transactions : List TxPublish := []
  lost : List Message := []

namespace Account

/-- The messages that have a place reserved. -/
def reserved (a : Account) : List Message :=
  (a.transactions.filter (·.prepared)).map (·.message) ++ a.lost

/-- The messages the depth should be that of. -/
def outstanding (a : Account) : List Message :=
  (a.queue.messages.messages.filter fun m => m.state ≠ .deleted) ++ a.reserved

/-- A message is lost where it has a place and what should push it throws. -/
def lose (lost : List Message) (m : Message) : Except String Unit → List Message
  | .ok _ => lost
  | .error _ => m :: lost

inductive Op (κ : Type) where
  | deliver (m : Message) (storeThrows publishThrows : Bool)
  | prepare (m : Message) (storeThrows : Bool)
  | commit (i : Nat) (publishThrows : Bool)
  | rollback (i : Nat)
  | recover (m : Message) (publishThrows : Bool)
  | dequeue (ctxt : Bool) (cursor : QueueCursor)
  | dequeueCommitted (cursor : QueueCursor)
  | dequeueMessageAt (position : SequenceNumber)
  | reject (cursor : QueueCursor)
  | remove (fuel : Nat) (maxCount : BitVec 32) (predicate : Message → Bool) (type : SubscriptionType)
      (maxTests : BitVec 32)
  | getNextMessage (expired : Message → Bool) (fuel : Nat) (c : Consumer κ)
  | acquire (position : QueueCursor)
  | release (position : QueueCursor) (markRedelivered : Bool)
  | destroyed

variable {κ : Type} [Subscriber κ]

def step (a : Account) : Op κ → Option Account
  | .deliver m storeThrows publishThrows =>
    let (r, q, _) := a.queue.deliverTo m storeThrows publishThrows
    some { a with
      queue := q
      lost := match (a.queue.enqueue m storeThrows).1 with
        | .ok true => lose a.lost m r
        | _ => a.lost }
  | .prepare m storeThrows =>
    let (_, t, q) := TxPublish.prepare ⟨m, false⟩ a.queue storeThrows
    some { a with queue := q, transactions := a.transactions ++ [t] }
  | .commit i publishThrows =>
    (a.transactions[i]?).map fun t =>
      let (r, q, _) := t.commit a.queue publishThrows
      { queue := q, transactions := a.transactions.eraseIdx i, lost := lose a.lost t.message r }
  | .rollback i =>
    (a.transactions[i]?).map fun t =>
      { a with queue := t.rollback a.queue, transactions := a.transactions.eraseIdx i }
  | .recover m publishThrows =>
    let (r, q, _) := a.queue.recover m publishThrows
    some { a with queue := q, lost := lose a.lost m r }
  | .dequeue ctxt cursor => some { a with queue := a.queue.dequeue ctxt cursor }
  | .dequeueCommitted cursor => some { a with queue := a.queue.dequeueCommitted cursor }
  | .dequeueMessageAt position => some { a with queue := (a.queue.dequeueMessageAt position).2 }
  | .reject cursor => some { a with queue := (a.queue.reject cursor).2 }
  | .remove fuel maxCount predicate type maxTests =>
    (Queue.remove fuel a.queue maxCount predicate type maxTests).map fun (_, q) => { a with queue := q }
  | .getNextMessage expired fuel c =>
    (Queue.getNextMessage expired fuel a.queue c).map fun (_, q, _, _) => { a with queue := q }
  | .acquire position => some { a with queue := (a.queue.acquire position).2 }
  | .release position markRedelivered =>
    (a.queue.release position markRedelivered).map fun (q, _) => { a with queue := q }
  | .destroyed => some { a with queue := { a.queue with deleted := true } }

/-- The depth of the queue is that of the messages outstanding, as far as its
counters go. -/
structure Exact (a : Account) : Prop where
  count : a.queue.current.count.value.toNat = a.outstanding.length % 2 ^ 32
  size : a.queue.current.size.valid = true →
    a.queue.current.size.value.toNat = (a.outstanding.map (·.getMessageSize.toNat)).sum % 2 ^ 64

end Account

end QB.Spec

namespace QB.Impl.Account

open Serial Spec Spec.Account

variable {κ : Type}

/-- What is pushed has a number ahead of those held, but for the deleted tail that is popped, and
no message released is deleted. -/
def Orderly (a : Account) : Op κ → Prop
  | .deliver _ _ _ | .commit _ _ | .recover _ _ =>
    ∀ x ∈ IndexedDeque.popTail () (a.queue.sequence + 1) (IndexedDeque.clean () a.queue.messages).messages,
      Ahead x.sequence (a.queue.sequence + 1)
  | .release c _ => c.valid = true → ∀ x ∈ a.queue.messages.messages, x.sequence = c.position →
      x.state ≠ .deleted
  | _ => True

instance (a : Account) : (op : Op κ) → Decidable (Orderly a op)
  | .deliver _ _ _ | .commit _ _ | .recover _ _ => List.decidableBAll _ _
  | .release c _ => inferInstanceAs (Decidable (c.valid = true → _))
  | .prepare _ _ | .rollback _ | .dequeue _ _ | .dequeueCommitted _ | .dequeueMessageAt _ | .reject _
  | .remove _ _ _ _ _ | .getNextMessage _ _ _ | .acquire _ | .destroyed => .isTrue trivial

end QB.Impl.Account

namespace QB.Impl.Queue

variable {M : Type}

/-- With one more message the depth stays within what is configured. -/
def Admissible (q : Queue M) (m : Message) : Prop :=
  (q.maxDepth.count.valid = true → q.current.count.value.toNat + 1 ≤ q.maxDepth.count.value.toNat) ∧
  (q.maxDepth.size.valid = true → q.current.size.value.toNat + m.getMessageSize.toNat ≤ q.maxDepth.size.value.toNat)

/-- A component is past its limit, or a limit of 0 bytes is not looked at beside one in messages. -/
def PastLimit (q : Queue M) (m : Message) : Prop :=
  (q.maxDepth.count.valid = true ∧ q.maxDepth.count.value.toNat < q.current.count.value.toNat) ∨
  (q.maxDepth.size.valid = true ∧ q.maxDepth.size.value.toNat < q.current.size.value.toNat) ∨
  (q.maxDepth.count.valid = true ∧ q.maxDepth.size.valid = true ∧ q.maxDepth.size.value.toNat = 0 ∧
    0 < m.getMessageSize.toNat)

/-- What `checkDepth` refuses: the number of messages is at its limit, or the size would come to be past
it, or so far past it that the difference wraps round to less than the message. -/
def Refused (q : Queue M) (m : Message) : Prop :=
  (q.maxDepth.count.valid = true ∧ q.current.count.value.toNat = q.maxDepth.count.value.toNat) ∨
  (q.maxDepth.size.valid = true ∧ (q.maxDepth.size.value.toNat ≠ 0 ∨ q.maxDepth.count.valid = false) ∧
    (q.current.size.value.toNat ≤ q.maxDepth.size.value.toNat ∧
        q.maxDepth.size.value.toNat < q.current.size.value.toNat + m.getMessageSize.toNat ∨
      2 ^ 64 + q.maxDepth.size.value.toNat < q.current.size.value.toNat + m.getMessageSize.toNat))

def Admits (q : Queue M) (m : Message) : Prop := (q.checkDepth (depthOf m)).1.isOk = true

instance (q : Queue M) (m : Message) : Decidable (q.Admits m) := inferInstanceAs (Decidable (_ = true))

end QB.Impl.Queue
