import QpidBroker.Framework.Serial
import QpidBroker.Impl.QueueFlowLimit

/-!
# A queue under flow control

The messages on a queue, what its flow limit was told of them, and the calls the limit
made on their completions.
-/

namespace QB.Spec

open Impl

/-- The messages that were enqueued and not yet dequeued, the oldest first, and the calls made, newest last. -/
structure FlowControl where
  limit : QueueFlowLimit
  live : List Message := []
  calls : List CompleterCall := []

namespace FlowControl

inductive Op where
  | enqueued (m : Message)
  | dequeued (m : Message)

/-- There is no step where the notification fails. -/
def step (s : FlowControl) : Op → Option FlowControl
  | .enqueued m =>
    match s.limit.enqueued m with
    | (.ok calls, limit) => some ⟨limit, s.live ++ [m], s.calls ++ calls⟩
    | (.error _, _) => none
  | .dequeued m =>
    match s.limit.dequeued m with
    | (.ok calls, limit) => some ⟨limit, s.live.eraseP (·.sequence = m.sequence), s.calls ++ calls⟩
    | (.error _, _) => none

def totalSize (l : List Message) : Nat := (l.map (·.getMessageSize.toNat)).sum

/-- A message is enqueued with a number ahead of those on the queue, whose number and size fit
their counters; one that is dequeued is on the queue. -/
def Notified (s : FlowControl) : Op → Prop
  | .enqueued m => m.toBool = true ∧ (∀ x ∈ s.live, Serial.Ahead x.sequence m.sequence) ∧
      s.live.length + 1 < 2 ^ 32 ∧ totalSize s.live + m.getMessageSize.toNat < 2 ^ 64
  | .dequeued m => ∃ x ∈ s.live, x.sequence = m.sequence ∧ x.encoding = m.encoding

instance (s : FlowControl) : (op : Op) → Decidable (s.Notified op)
  | .enqueued _ => inferInstanceAs (Decidable (_ ∧ _))
  | .dequeued _ => inferInstanceAs (Decidable (∃ x ∈ s.live, _))

/-- How often the completion of the message under a number was started, and finished. -/
def started (calls : List CompleterCall) (p : SequenceNumber) : Nat :=
  calls.countP fun
    | .startCompleter m => m.sequence = p
    | .finishCompleter _ => false

def finished (calls : List CompleterCall) (p : SequenceNumber) : Nat :=
  calls.countP fun
    | .startCompleter _ => false
    | .finishCompleter m => m.sequence = p

/-- A completion that was started has been finished once, or its message is held; a message is held
only while it is on the queue and flow is stopped. The counters are those of the queue. -/
structure NoLeak (s : FlowControl) : Prop where
  completed : ∀ p, started s.calls p = finished s.calls p + s.limit.index.countP (·.sequence = p)
  single : ∀ p, s.limit.index.countP (·.sequence = p) ≤ 1
  live : ∀ m ∈ s.limit.index, m ∈ s.live
  flows : s.limit.flowStopped = false → s.limit.index = []
  count : s.limit.count.toNat = s.live.length
  size : s.limit.size.toNat = totalSize s.live
  empty : s.live = [] → s.limit.flowStopped = false

end FlowControl

end QB.Spec
