import QpidBroker.Impl.MessageDeque
import QpidBroker.Impl.QueueDepth
import QpidBroker.Impl.QueueListeners

/-!
# The queue

`broker/Queue.{h,cpp}`, over any container of messages, with the allocator
`FifoDistributor`. An operation that runs under `messageLock` is one step.

* What a queue is told from outside is an argument: whether a message has
  expired, whether the store throws, and whether the container throws before
  it does anything (as it may when it allocates).
* Where the source throws, the queue left behind is returned with the error.
* Consumers to notify are returned, as the source notifies them once the lock
  is no longer held.
* Left out: management statistics, observers, interceptors, auto-deletion,
  redirection and tracing, none of which the functions here read back.
-/

namespace QB.Impl

structure Queue (M : Type) where
  messages : M
  /-- `settings.maxDepth`. -/
  maxDepth : QueueDepth := {}
  current : QueueDepth := {}
  sequence : SequenceNumber := 0
  listeners : QueueListeners := {}
  hasStore : Bool := false
  deleted : Bool := false
deriving DecidableEq

/-- What `getNextMessage` asks of a consumer. `accept` may note that the
consumer is blocked. -/
class Subscriber (κ : Type) where
  filter : κ → Message → Bool
  accept : κ → Message → Bool × κ

/-- A consumer: a cursor that is also the key it is listed under, and what
makes it one of its class. -/
structure Consumer (κ : Type) where
  id : Nat
  cursor : QueueCursor := {}
  impl : κ
deriving DecidableEq

/-- `preAcquires`, set by the type of the subscription. -/
def Consumer.preAcquires {κ : Type} (c : Consumer κ) : Bool := c.cursor.type = .consumer

/-- How `getNextMessage` ends: with a message, one that the consumer cannot
accept now, or none. -/
inductive Outcome (P : Type) where
  | found (m : Message)
  | refused (p : P)
  | nothing

namespace Queue

/-- `merge(inputs, globalOptions)`, of the maximum depth. -/
def merge (inputs : QueueDepth) (queueLimit : BitVec 64) : QueueDepth :=
  let maxDepth : QueueDepth := {}
  let maxDepth :=
    if inputs.count.valid && inputs.count.value ≠ 0 then maxDepth.setCount inputs.count.value else maxDepth
  if inputs.size.valid then
    if inputs.size.value ≠ 0 then maxDepth.setSize inputs.size.value else maxDepth
  else if queueLimit ≠ 0 then maxDepth.setSize queueLimit
  else maxDepth

/-- `Queue(name, settings, store, parent, broker)`: settings are merged with
the broker's, if there is one. -/
def new {M : Type} (messages : M) (settings : QueueDepth) (broker : Option (BitVec 64)) (hasStore : Bool) : Queue M :=
  let maxDepth := match broker with
    | some queueLimit => merge settings queueLimit
    | none => settings
  -- the depth in messages is always tracked, that in bytes only if policy requires it
  let current : QueueDepth := ({} : QueueDepth).setCount 0
  { messages := messages
    maxDepth := maxDepth
    current := if maxDepth.size.value ≠ 0 then current.setSize 0 else current
    hasStore := hasStore }

variable {M : Type}

def depthOf (m : Message) : QueueDepth := .of 1 m.getMessageSize

def checkDepth (q : Queue M) (increment : QueueDepth) : Except String Bool × Queue M :=
  if q.maxDepth.toBool && (q.maxDepth.sub q.current).lt increment then (.error "Maximum depth exceeded", q)
  else (.ok true, { q with current := q.current.addTo increment })

def enqueueAborted (q : Queue M) (m : Message) : Queue M := { q with current := q.current.subTo (depthOf m) }

/-- `enqueue(ctxt, msg)`: whether the message is to be made available. -/
def enqueue (q : Queue M) (m : Message) (storeThrows : Bool) : Except String Bool × Queue M :=
  if q.deleted then (.ok false, q)
  else
    match q.checkDepth (depthOf m) with
    | (.ok true, q) =>
      if m.isPersistent && q.hasStore && storeThrows then (.error "store", q.enqueueAborted m) else (.ok true, q)
    | r => r

variable [Messages M]

/-- `push(message)`: whether the container threw, and those to notify. -/
def push (q : Queue M) (m : Message) (publishThrows : Bool := false) : Except String Unit × Queue M × List Nat :=
  let sequence := q.sequence + 1
  let q := { q with sequence := sequence }
  if publishThrows then (.error "publish", q, [])
  else
    match Messages.publish q.messages (m.setSequence sequence) with
    | (.error e, messages) => (.error e, { q with messages := messages }, [])
    | (.ok _, messages) =>
      let (listeners, copy) := q.listeners.populate {}
      (.ok (), { q with messages := messages, listeners := listeners }, copy.notify)

/-- `deliverTo(msg, 0)`, of a message the queue accepts. -/
def deliverTo (q : Queue M) (m : Message) (storeThrows : Bool) (publishThrows : Bool := false) :
    Except String Unit × Queue M × List Nat :=
  match q.enqueue m storeThrows with
  | (.error e, q) => (.error e, q, [])
  | (.ok false, q) => (.ok (), q, [])
  | (.ok true, q) => q.push m publishThrows

def recoverPrepared (q : Queue M) (m : Message) : Queue M := { q with current := q.current.addTo (depthOf m) }

def recover (q : Queue M) (m : Message) (publishThrows : Bool := false) : Except String Unit × Queue M × List Nat :=
  (q.recoverPrepared m).push m publishThrows

def process (q : Queue M) (m : Message) (publishThrows : Bool := false) : Except String Unit × Queue M × List Nat :=
  q.push m publishThrows

def observeDequeue (q : Queue M) (m : Message) : Queue M := { q with current := q.current.subTo (depthOf m) }

def release (q : Queue M) (position : QueueCursor) (markRedelivered : Bool) : Option (Queue M × List Nat) :=
  if q.deleted then some (q, [])
  else
    (Messages.release q.messages position).map fun (message, messages) =>
      let q := { q with messages := messages }
      match message with
      | none => (q, [])
      | some p =>
        let messages := if markRedelivered then q.messages else Messages.modify q.messages p (·.undeliver)
        let (listeners, copy) := q.listeners.populate {}
        ({ q with messages := messages, listeners := listeners }, copy.notify)

/-- What is found at a pointer is taken off the queue. -/
def takeOff (q : Queue M) (p : Messages.Ptr M) (cursor : QueueCursor) : Queue M :=
  let q := match Messages.get q.messages p with
    | some m => q.observeDequeue m
    | none => q
  { q with messages := (Messages.deleted q.messages cursor).2 }

def dequeueMessageAt (q : Queue M) (position : SequenceNumber) : Bool × Queue M :=
  match Messages.find q.messages position (some {}) with
  | (some p, cursor) => (true, q.takeOff p (cursor.getD {}))
  | (none, _) => (false, q)

def acquire (q : Queue M) (position : QueueCursor) : Bool × Queue M :=
  match Messages.findAt q.messages position with
  | none => (false, q)
  | some p =>
    match (Messages.get q.messages p).map FifoDistributor.acquire with
    | some (true, m) => (true, { q with messages := Messages.modify q.messages p fun _ => m })
    | _ => (false, q)

/-- `dequeue(ctxt, cursor)`: under a transaction the message stays until that
is committed. -/
def dequeue (q : Queue M) (ctxt : Bool) (cursor : QueueCursor) : Queue M :=
  if q.deleted then q
  else
    match Messages.findAt q.messages cursor with
    | none => q
    | some p => if ctxt then q else q.takeOff p cursor

def dequeueCommitted (q : Queue M) (cursor : QueueCursor) : Queue M :=
  match Messages.findAt q.messages cursor with
  | none => q
  | some p => q.takeOff p cursor

/-- `reject(cursor)`: the message to route to the alternate exchange. -/
def reject (q : Queue M) (cursor : QueueCursor) : Option Message × Queue M :=
  match Messages.findAt q.messages cursor with
  | none => (none, q)
  | some p => ((Messages.get q.messages p).map (·.resetDeliveryCount), q.takeOff p cursor)

/-- The loop of `remove`: the messages removed so far, and the numbers of
messages counted and tested. There is no result where the fuel does not last. -/
def removeLoop (maxCount : BitVec 32) (predicate : Message → Bool) (maxTests : BitVec 32) :
    Nat → Queue M → QueueCursor → BitVec 32 → BitVec 32 → List Message → Option (List Message × Queue M)
  | 0, _, _, _, _, _ => none
  | fuel + 1, q, c, count, tests, removed =>
    match Messages.next q.messages c with
    | (none, _, messages) => some (removed, { q with messages := messages })
    | (some p, c, messages) =>
      let q := { q with messages := messages }
      match Messages.get q.messages p with
      | none => none
      | some m =>
        if maxTests ≠ 0 ∧ tests ≥ maxTests then some (removed, q)
        else if predicate m then
          if maxCount ≠ 0 ∧ count ≥ maxCount then some (removed, q)
          else removeLoop maxCount predicate maxTests fuel (q.takeOff p c) c (count + 1) (tests + 1) (removed ++ [m])
        else removeLoop maxCount predicate maxTests fuel q c count (tests + 1) removed

/-- `remove(maxCount, predicate, _, type, _, maxTests)`: the messages removed. -/
def remove (fuel : Nat) (q : Queue M) (maxCount : BitVec 32) (predicate : Message → Bool)
    (type : SubscriptionType) (maxTests : BitVec 32) : Option (List Message × Queue M) :=
  removeLoop maxCount predicate maxTests fuel q { type := type } 0 0 []

section GetNextMessage

variable {κ : Type} [Subscriber κ]

/-- The loop of `getNextMessage`. There is no result where the fuel does not last. -/
def getNextLoop (expired : Message → Bool) : Nat → Queue M → Consumer κ → NotificationSet →
    Option (Outcome (Messages.Ptr M) × Queue M × Consumer κ × NotificationSet)
  | 0, _, _, _ => none
  | fuel + 1, q, c, set =>
    -- the cursor of `c` is the current position, to be restored where `c` cannot accept
    match Messages.next q.messages c.cursor with
    | (none, cursor, messages) =>
      let listeners := q.listeners.addListener c.id c.preAcquires
      some (.nothing, { q with messages := messages, listeners := listeners }, { c with cursor := cursor }, set)
    | (some p, cursor, messages) =>
      let q := { q with messages := messages }
      let c' := { c with cursor := cursor }
      match Messages.get q.messages p with
      | none => none
      | some m =>
        if expired m then getNextLoop expired fuel (q.takeOff p cursor) c' set
        else if Subscriber.filter c.impl m then
          let (accepted, impl) := Subscriber.accept c.impl m
          if accepted then
            if c.preAcquires then
              match FifoDistributor.acquire m with
              | (true, m) =>
                let m := m.deliver
                some (.found m, { q with messages := Messages.modify q.messages p fun _ => m },
                  { c' with impl := impl }, set)
              | (false, _) => getNextLoop expired fuel q { c' with impl := impl } set
            else some (.found m, q, { c' with impl := impl }, set)
          else
            let (listeners, set) := if c.preAcquires then q.listeners.populate set else (q.listeners, set)
            some (.refused p, { q with listeners := listeners }, { c with impl := impl }, set)
        else
          let (listeners, set) := if c.preAcquires then q.listeners.populate set else (q.listeners, set)
          getNextLoop expired fuel { q with listeners := listeners } c' set

/-- `getNextMessage(m, c)`, on a queue that is not deleted. -/
def getNextMessage (expired : Message → Bool) (fuel : Nat) (q : Queue M) (c : Consumer κ) :
    Option (Outcome (Messages.Ptr M) × Queue M × Consumer κ × List Nat) :=
  (getNextLoop expired fuel q c {}).map fun (r, q, c, set) => (r, q, c, set.notify)

end GetNextMessage

end Queue

/-- `Queue::TxPublish`, the part of a transaction that publishes one message. -/
structure TxPublish where
  message : Message
  prepared : Bool := false
deriving DecidableEq

namespace TxPublish

variable {M : Type}

/-- `prepare`, where the exception of `enqueue` is caught. -/
def prepare (t : TxPublish) (q : Queue M) (storeThrows : Bool) : Bool × TxPublish × Queue M :=
  match q.enqueue t.message storeThrows with
  | (.ok prepared, q) => (true, { t with prepared := prepared }, q)
  | (.error _, q) => (false, t, q)

/-- `commit`, where that of `process` is; it is returned here. -/
def commit [Messages M] (t : TxPublish) (q : Queue M) (publishThrows : Bool := false) :
    Except String Unit × Queue M × List Nat :=
  if t.prepared then q.process t.message publishThrows else (.ok (), q, [])

def rollback (t : TxPublish) (q : Queue M) : Queue M := if t.prepared then q.enqueueAborted t.message else q

end TxPublish

end QB.Impl
