import QpidBroker.Impl.IndexedDeque

/-!
# Message containers

`broker/Messages.h`, the interface of the containers a queue holds its
messages in; `broker/MessageDeque.{h,cpp}`, the container of a plain queue;
`broker/FifoDistributor.cpp`, the allocator that hands its messages out.
-/

namespace QB.Impl

/-- The interface `Messages`. A pointer to a message held is a value of the
container's own type `Ptr`, read with `get` and written with `modify`. Where a
container would follow a null pointer, `release` has no result. -/
class Messages (M : Type) where
  Ptr : Type
  get : M → Ptr → Option Message
  modify : M → Ptr → (Message → Message) → M
  size : M → Nat
  deleted : M → QueueCursor → Bool × M
  publish : M → Message → Except String Unit × M
  next : M → QueueCursor → Option Ptr × QueueCursor × M
  release : M → QueueCursor → Option (Option Ptr × M)
  find : M → SequenceNumber → Option QueueCursor → Option Ptr × Option QueueCursor
  findAt : M → QueueCursor → Option Ptr

def FifoDistributor.acquire (m : Message) : Bool × Message :=
  if m.state = .available then (true, m.setState .acquired) else (false, m)

/-- A message is a record that holds its own state. -/
instance : Record Unit Message where
  getSequence _ m := m.sequence
  getState _ m := m.state
  setState _ m st := ((), m.setState st)
  padding id := ({} : Message).setState .deleted |>.setSequence id

abbrev MessageDeque := IndexedDeque Message

namespace MessageDeque

def deleted (d : MessageDeque) (cursor : QueueCursor) : Bool × MessageDeque :=
  let (b, _, d) := IndexedDeque.deleted () d cursor
  (b, d)

def publish (d : MessageDeque) (added : Message) : Except String Unit × MessageDeque :=
  let (r, _, d) := IndexedDeque.publish () d added
  (r.map fun _ => (), d)

def release (d : MessageDeque) (cursor : QueueCursor) : Option Nat × MessageDeque :=
  let (r, _, d) := IndexedDeque.release () d cursor
  (r, d)

def next (d : MessageDeque) (cursor : QueueCursor) : Option Nat × QueueCursor :=
  IndexedDeque.next () d cursor

def size (d : MessageDeque) : Nat := IndexedDeque.size () d

def find (d : MessageDeque) (position : SequenceNumber) (cursor : Option QueueCursor) :
    Option Nat × Option QueueCursor :=
  IndexedDeque.find () d position cursor

def findAt (d : MessageDeque) (cursor : QueueCursor) : Option Nat := IndexedDeque.findAt () d cursor

def foreach (d : MessageDeque) : List Message × MessageDeque := IndexedDeque.foreach () d

/-- What is done to the message a pointer leads to. -/
def modify (d : MessageDeque) (i : Nat) (f : Message → Message) : MessageDeque :=
  { d with messages := d.messages.modify i f }

end MessageDeque

instance : Messages MessageDeque where
  Ptr := Nat
  get d i := d.messages[i]?
  modify := MessageDeque.modify
  size := MessageDeque.size
  deleted := MessageDeque.deleted
  publish := MessageDeque.publish
  next d c := let (p, c) := d.next c; (p, c, d)
  release d c := some (d.release c)
  find := MessageDeque.find
  findAt := MessageDeque.findAt

namespace MessageDeque

/-- A call made on a deque. `acquire` is the allocator's, on the message found
at a number. -/
inductive Call where
  | publish (added : Message)
  | deleted (cursor : QueueCursor)
  | release (cursor : QueueCursor)
  | acquire (position : SequenceNumber)
  | clean
  | foreach

/-- The deque a call leaves, whether it throws or not. -/
def call (d : MessageDeque) : Call → MessageDeque
  | .publish m => (d.publish m).2
  | .deleted c => (d.deleted c).2
  | .release c => (d.release c).2
  | .acquire p =>
    match (d.find p none).1 with
    | some i => d.modify i fun m => (FifoDistributor.acquire m).2
    | none => d
  | .clean => IndexedDeque.clean () d
  | .foreach => d.foreach.2

end MessageDeque

end QB.Impl
