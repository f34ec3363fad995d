import QpidBroker.Impl.QueueReplicator

/-!
# A replicated queue

A queue and the ids of its messages through the life of its broker, as a backup and as the
primary (`Life`), and both ends of a replicated queue with what they remember of the messages
that are gone (`Replication`).
-/

namespace QB.Spec.Ha

open QB.Impl QB.Impl.Ha List

/-- Who sets the ids: a `QueueReplicator`, or the `IdSetter` of the primary. -/
inductive Role where
  | backup (r : QueueReplicator)
  | primary (nextId : ReplicationId)

/-- A queue, and how many ids were set on it since the last promotion. -/
structure Life where
  role : Role := .backup {}
  queue : IdQueue := {}
  recorded : Nat := 0

inductive LifeOp where
  | replicated (e : ReplicationEvent)
  /-- `TxReplicator::deliver`: a message of a transaction, with the id that it has on the primary. -/
  | transactional (id : ReplicationId)
  | promote
  | publish
  | dequeue (position : SequenceNumber)
  | demote

namespace Life

def step (s : Life) (op : LifeOp) : Option Life :=
  match op, s.role with
  | .replicated e, .backup r => some { s with role := .backup (r.route s.queue e).1, queue := (r.route s.queue e).2 }
  | .transactional id, .backup _ => some { s with queue := s.queue.deliver id }
  | .promote, .backup r => some { s with role := .primary r.promoted, recorded := 0 }
  | .publish, .primary id =>
    some ⟨.primary (id + 1), s.queue.deliver id, s.recorded + 1⟩
  | .dequeue position, _ => some { s with queue := s.queue.dequeueMessageAt position }
  | .demote, .primary _ => some { s with role := .backup {} }
  | _, _ => none

/-- What a backup is sent has an id that is not on its queue; a backup is promoted when its maximum
is no less than the ids on its queue, and is the primary for less than half the number space. -/
def Ok (s : Life) (op : LifeOp) : Bool :=
  match op, s.role with
  | .replicated .message, .backup r => !s.queue.ids.contains r.nextId
  | .transactional id, _ => !s.queue.ids.contains id
  | .promote, .backup r => s.queue.ids.all fun id => id.le r.maxId
  | .publish, _ => s.recorded + 1 < 2 ^ 31
  | _, _ => true

end Life

/-- A queue on the primary, with the messages that its subscription has yet to see, and on a
backup. Recorded are the dequeue events that were sent, the ids dequeued since the last and
all that were ever dequeued. -/
structure Replication where
  queue : List ReplicationId := []
  unseen : List ReplicationId := []
  subscription : ReplicatingSubscription := {}
  channel : List ReplicationEvent := []
  replicator : QueueReplicator := {}
  backup : IdQueue := {}
  sent : List (List ReplicationId) := []
  recent : List ReplicationId := []
  gone : List ReplicationId := []

inductive ReplicationOp where
  | enqueue (id : ReplicationId)
  | dequeue (id : ReplicationId)
  | addSkip (ids : List ReplicationId)
  | dispatch
  | receive
deriving DecidableEq

namespace Replication

/-- The first part of `doDispatch`. -/
def sendDequeues (s : Replication) : Replication :=
  match s.subscription.sendDequeueEvent with
  | [] => s
  | es => { s with channel := s.channel ++ es, sent := s.sent ++ [s.subscription.dequeues], recent := [] }

/-- The message that is dispatched, if there is one. -/
def deliver (s : Replication) : Replication :=
  match s.unseen with
  | [] => s
  | id :: rest =>
    { s with unseen := rest, subscription := (s.subscription.deliver id).1
             channel := s.channel ++ (s.subscription.deliver id).2 }

def step (s : Replication) : ReplicationOp → Option Replication
  | .enqueue id => some { s with queue := s.queue ++ [id], unseen := s.unseen ++ [id] }
  | .dequeue id =>
    if s.queue.contains id then
      some { s with queue := s.queue.erase id, unseen := s.unseen.erase id
                    subscription := s.subscription.dequeued id, recent := id :: s.recent, gone := id :: s.gone }
    else none
  | .addSkip ids => some { s with subscription := s.subscription.addSkip ids }
  | .dispatch => some s.sendDequeues.deliver
  | .receive =>
    match s.channel with
    | [] => none
    | e :: rest =>
      some { s with channel := rest, replicator := (s.replicator.route s.backup e).1
                    backup := (s.replicator.route s.backup e).2 }

/-- Each id that was dequeued is pending or was sent, in one event and never again, and no other
id is; what is pending was dequeued since the last event; and the map of the backup has ids that
are on its queue. -/
structure Bounded (s : Replication) : Prop where
  once : ∀ id, s.sent.countP (id ∈ ·) + s.subscription.dequeues.count id = if id ∈ s.gone then 1 else 0
  pending : ∀ id ∈ s.subscription.dequeues, id ∈ s.recent
  positions : ∀ e ∈ s.replicator.positions, e.1 ∈ s.backup.ids

/-- Nothing is pending when the subscription is dispatched. -/
def Ok (s : Replication) (op : ReplicationOp) : Prop := op = .dispatch → s.subscription.dequeues = []

instance (s : Replication) (op : ReplicationOp) : Decidable (s.Ok op) := inferInstanceAs (Decidable (_ → _))

end Replication

end QB.Spec.Ha
