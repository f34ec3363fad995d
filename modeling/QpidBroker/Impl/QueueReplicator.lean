import QpidBroker.Impl.Message

/-!
# Replication of a queue

`ha/ReplicatingSubscription.cpp` on the primary, `ha/QueueReplicator.cpp` on a backup,
`ha/IdSetter.h` and `TxReplicator::deliver`: how messages get their replication ids, and how the
backup learns of enqueues and dequeues.

* A queue takes every message: limits are left out. So is what only concerns the guard of a
  queue, the readiness of a subscription and the deletion of queues.
* `initialize` is left out, which compares the ids on the primary with those that the backup
  says it has: those only on the backup are its first dequeues, the others its first `skip`. A
  subscription here is one to a backup whose queue was empty.
* A set of ids is a list without repetitions, and `unordered_map` one of its entries.
-/

namespace QB.Impl.Ha

abbrev ReplicationId := SequenceNumber

/-- A queue: the position that was given last, and the positions and ids of its messages. -/
structure IdQueue where
  position : SequenceNumber := 0
  messages : List (SequenceNumber × ReplicationId) := []
deriving DecidableEq

namespace IdQueue

def ids (q : IdQueue) : List ReplicationId := q.messages.map (·.2)

def deliver (q : IdQueue) (id : ReplicationId) : IdQueue :=
  ⟨q.position + 1, q.messages ++ [(q.position + 1, id)]⟩

def dequeueMessageAt (q : IdQueue) (position : SequenceNumber) : IdQueue :=
  { q with messages := q.messages.filter (·.1 ≠ position) }

end IdQueue

/-- What is sent to a backup: `IdEvent`, `DequeueEvent` and messages. -/
inductive ReplicationEvent where
  | id (id : ReplicationId)
  | dequeue (ids : List ReplicationId)
  | message
deriving DecidableEq

/-! ## On the primary -/

structure ReplicatingSubscription where
  /-- Dequeues to be sent in next dequeue event. -/
  dequeues : List ReplicationId := []
  /-- Messages already on the backup and enqueues of transactions. -/
  skip : List ReplicationId := []
deriving DecidableEq

namespace ReplicatingSubscription

variable (s : ReplicatingSubscription)

def dequeued (id : ReplicationId) : ReplicatingSubscription := { s with dequeues := s.dequeues.insert id }

def addSkip (ids : List ReplicationId) : ReplicatingSubscription := { s with skip := s.skip ∪ ids }

/-- The event, if there is one, is sent; the set stays as it is. -/
def sendDequeueEvent : List ReplicationEvent := if s.dequeues.isEmpty then [] else [.dequeue s.dequeues]

def deliver (id : ReplicationId) : ReplicatingSubscription × List ReplicationEvent :=
  if id ∈ s.skip then ({ s with skip := s.skip.erase id }, []) else (s, [.id id, .message])

end ReplicatingSubscription

/-! ## On a backup -/

structure QueueReplicator where
  positions : List (ReplicationId × SequenceNumber) := []
  /-- ID for next message to arrive. -/
  nextId : ReplicationId := 0
  /-- Max ID used so far. -/
  maxId : ReplicationId := 0
deriving DecidableEq

namespace QueueReplicator

variable (r : QueueReplicator) (q : IdQueue)

def dequeueEvent (ids : List ReplicationId) : IdQueue :=
  ids.foldl (fun q id => match r.positions.lookup id with
    | some position => q.dequeueMessageAt position
    | none => q) q

def route : ReplicationEvent → QueueReplicator × IdQueue
  | .id id => ({ r with nextId := id }, q)
  | .dequeue ids => (r, r.dequeueEvent q ids)
  | .message =>
    let id := r.nextId
    let q := q.deliver id
    ({ positions := (id, q.position) :: r.positions.filter (·.1 ≠ id)
       nextId := id + 1
       maxId := if r.maxId.lt id then id else r.maxId }, q)

/-- `promoted()`: the first id of the `IdSetter` that takes over. -/
def promoted : ReplicationId := r.maxId + 1

end QueueReplicator

end QB.Impl.Ha
