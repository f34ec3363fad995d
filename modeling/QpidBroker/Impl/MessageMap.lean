import QpidBroker.Impl.MessageDeque

/-!
# The message map of a last value queue

`broker/MessageMap.{h,cpp}`: the messages by sequence number, and the latest one
under each value of a key. Both `std::map`s are lists of their entries; the
one by sequence number is in the order of `SequenceNumber`'s `operator<`.
-/

namespace QB.Impl

structure MessageMap where
  key : String
  index : List (String × Message) := []
  messages : List (SequenceNumber × Message) := []
  version : BitVec 32 := 0
deriving DecidableEq

namespace MessageMap

def getKey (q : MessageMap) (m : Message) : String := m.getPropertyAsString q.key

def lookup (q : MessageMap) (p : SequenceNumber) : Option Message := q.messages.lookup p

/-- `messages.insert`: nothing happens if there is an entry under the number. -/
def insert (l : List (SequenceNumber × Message)) (p : SequenceNumber) (m : Message) :
    List (SequenceNumber × Message) :=
  match l with
  | [] => [(p, m)]
  | (p', m') :: l => if p = p' then (p', m') :: l else if p.lt p' then (p, m) :: (p', m') :: l
    else (p', m') :: insert l p m

/-- What is done to the message under a number. -/
def modify (q : MessageMap) (p : SequenceNumber) (f : Message → Message) : MessageMap :=
  { q with messages := q.messages.map fun e => if e.1 = p then (e.1, f e.2) else e }

def size (q : MessageMap) : Nat := q.messages.countP fun e => e.2.state = .available

/-- `erase`: from the index, the entry under the message's key. -/
def deleted (q : MessageMap) (cursor : QueueCursor) : Bool × MessageMap :=
  match q.lookup cursor.position with
  | none => (false, q)
  | some m =>
    (true, { q with
        index := q.index.filter fun e => e.1 ≠ q.getKey m
        messages := q.messages.filter fun e => e.1 ≠ cursor.position })

/-- `find(position, cursor)`, by `lower_bound`. -/
def find (q : MessageMap) (position : SequenceNumber) (cursor : Option QueueCursor) :
    Option SequenceNumber × Option QueueCursor :=
  match q.messages.find? fun e => !e.1.lt position with
  | some (p, _) => (if p = position then some p else none, cursor.map (·.setPosition p q.version))
  | none => (none, cursor.map (·.setPosition position q.version))

def findAt (q : MessageMap) (cursor : QueueCursor) : Option SequenceNumber :=
  if cursor.valid then (q.find cursor.position none).1 else none

/-- The loop of `next`. -/
def nextLoop (version : BitVec 32) : List (SequenceNumber × Message) → QueueCursor →
    Option SequenceNumber × QueueCursor
  | [], cursor => (none, cursor)
  | (p, m) :: l, cursor =>
    let cursor := cursor.setPosition m.sequence version
    if cursor.check m.state then (some p, cursor) else nextLoop version l cursor

/-- `next`, from `begin` or `upper_bound`. -/
def next (q : MessageMap) (cursor : QueueCursor) : Option SequenceNumber × QueueCursor :=
  let l := if cursor.valid then q.messages.dropWhile fun e => !cursor.position.lt e.1 else q.messages
  nextLoop q.version l cursor

/-- `replace(original, update)`: the message left under the number of `update`. -/
def replace (q : MessageMap) (original update : Message) : Message × MessageMap :=
  let l := q.messages.filter fun e => e.1 ≠ original.sequence
  let q := { q with messages := insert l update.sequence update }
  let q := q.modify update.sequence (·.setState .available)
  (((q.lookup update.sequence).getD update), q)

/-- `update(added, removed)`, without what it returns. -/
def update (q : MessageMap) (added : Message) : MessageMap :=
  match q.index.lookup (q.getKey added) with
  | none =>
    let q := { q with
      index := q.index ++ [(q.getKey added, added)]
      messages := insert q.messages added.sequence added }
    q.modify added.sequence (·.setState .available)
  | some original =>
    let (m, q) := q.replace original added
    { q with index := q.index.map fun e => if e.1 = q.getKey added then (e.1, m.setState .available) else e }

def publish (q : MessageMap) (added : Message) : MessageMap := q.update added

def release (q : MessageMap) (cursor : QueueCursor) : Option SequenceNumber × MessageMap :=
  match q.lookup cursor.position with
  | some _ => (some cursor.position, q.modify cursor.position (·.setState .available))
  | none => (none, q)

end MessageMap

instance : Messages MessageMap where
  Ptr := SequenceNumber
  get := MessageMap.lookup
  modify := MessageMap.modify
  size := MessageMap.size
  deleted := MessageMap.deleted
  publish q m := (.ok (), q.publish m)
  next q c := let (p, c) := q.next c; (p, c, q)
  release q c := some (q.release c)
  find := MessageMap.find
  findAt := MessageMap.findAt

namespace MessageMap

/-- A call made on a map. `acquire` is the allocator's, on the message found
at a number. -/
inductive Call where
  | publish (added : Message)
  | update (added : Message)
  | deleted (cursor : QueueCursor)
  | acquire (position : SequenceNumber)
  | release (cursor : QueueCursor)

/-- The map a call leaves. -/
def call (q : MessageMap) : Call → MessageMap
  | .publish m => q.publish m
  | .update m => q.update m
  | .deleted c => (q.deleted c).2
  | .acquire p =>
    match (q.find p none).1 with
    | some p => q.modify p fun m => (FifoDistributor.acquire m).2
    | none => q
  | .release c => (q.release c).2

end MessageMap

end QB.Impl
