import QpidBroker.Impl.MessageDeque

/-!
# The priority queue and fairshare

`broker/PriorityQueue.{h,cpp}`, `broker/Fairshare.{h,cpp}`: one indexed deque of
message holders for each priority level, and an index of all messages in
the order they were published (`fifo`) that points to the holders.

The message and priority of a holder are allocated apart from it (`Body`), at
an address that is never used again, so that the pointers of the index are
addresses; a holder that is padding has none. The contexts that cursors share
are allocated likewise. `Fairshare` overrides how the levels are visited: its
fields are `fairshare`, present in a queue of that class.
-/

namespace QB.Impl

/-- `message` and `priority` of a `MessageHolder`. -/
structure Body where
  message : Message
  priority : Nat
deriving DecidableEq

structure MessageHolder where
  body : Option Nat
  id : SequenceNumber
deriving DecidableEq

/-- `holder` is the address of the holder's body, `id` is used only for padding. -/
structure MessagePointer where
  holder : Option Nat
  id : SequenceNumber
deriving DecidableEq

/-- The bodies allocated. -/
abbrev Bodies := List Body

namespace Bodies

def get (s : Bodies) (a : Option Nat) : Option Body := a.bind (s[·]?)

/-- The state of the message at an address. Null counts as deleted. -/
def getState (s : Bodies) (a : Option Nat) : MessageState :=
  ((s.get a).map (·.message.state)).getD .deleted

def modify (s : Bodies) (a : Option Nat) (f : Message → Message) : Bodies :=
  match a with
  | some a => List.modify s a fun b => { b with message := f b.message }
  | none => s

/-- The sequence number of the message at an address. -/
def sequenceAt (s : Bodies) (a : Option Nat) : SequenceNumber :=
  ((s.get a).map (·.message.sequence)).getD 0

end Bodies

instance : Record Bodies MessageHolder where
  getSequence _ h := h.id
  getState s h := s.getState h.body
  setState s h st := (s.modify h.body (·.setState st), h)
  padding id := { body := none, id := id }

instance : Record Bodies MessagePointer where
  getSequence s p := ((s.get p.holder).map (·.message.sequence)).getD p.id
  getState s p := s.getState p.holder
  setState s p st := (s.modify p.holder (·.setState st), p)
  padding id := { holder := none, id := id }

/-- The fields of `Fairshare`. -/
structure Fairshare where
  limits : List (BitVec 32)
  priority : Nat
  count : BitVec 32 := 0
deriving DecidableEq

namespace Fairshare

/-- `limitReached`, which counts the level up if it has a limit. -/
def limitReached (f : Fairshare) : Bool × Fairshare :=
  let l := (f.limits[f.priority]?).getD 0
  if l = 0 then (false, f)
  else
    let f := { f with count := f.count + 1 }
    (decide (f.count > l), f)

def nextLevel (levels : Nat) (f : Fairshare) : Nat × Fairshare :=
  let priority := if f.priority ≠ 0 then f.priority - 1 else levels - 1
  (priority, { f with count := 1, priority := priority })

def currentLevel (levels : Nat) (f : Fairshare) : Nat × Fairshare :=
  let (reached, f) := f.limitReached
  if reached then f.nextLevel levels else (f.priority, f)

end Fairshare

structure PriorityQueue where
  levels : Nat
  messages : List (IndexedDeque MessageHolder)
  counters : List SequenceNumber
  fifo : IndexedDeque MessagePointer := {}
  bodies : Bodies := []
  contexts : List (List QueueCursor) := []
  fairshare : Option Fairshare := none
deriving DecidableEq

namespace PriorityQueue

def new (levels : Nat) : PriorityQueue :=
  { levels := levels
    messages := List.replicate levels {}
    counters := List.replicate levels 0 }

/-- `Fairshare::create`: the default limit, and those of single levels. -/
def newFairshare (levels : Nat) (limit : BitVec 32) (limits : List (Nat × BitVec 32)) : PriorityQueue :=
  { new levels with
    fairshare := some
      { limits := (List.range levels).map fun i => (limits.lookup i).getD limit
        priority := levels - 1 } }

structure Priority where
  start : Nat
  current : Nat
deriving DecidableEq

def firstLevel (q : PriorityQueue) : Priority × PriorityQueue :=
  match q.fairshare with
  | none => (⟨q.levels - 1, q.levels - 1⟩, q)
  | some f =>
    let (level, f) := f.currentLevel q.levels
    (⟨level, level⟩, { q with fairshare := some f })

/-- `nextLevel(p)`: the level after `p`, if there is one. -/
def nextLevel (q : PriorityQueue) (p : Priority) : Option Priority × PriorityQueue :=
  match q.fairshare with
  | none => (if p.current > 0 then some { p with current := p.current - 1 } else none, q)
  | some f =>
    let (next, f) := f.nextLevel q.levels
    (if next = p.start then none else some { p with current := next }, { q with fairshare := some f })

def getPriorityLevel (q : PriorityQueue) (m : Message) : Nat :=
  let priority := m.getPriority.toNat
  let firstLevel := 5 - min 5 ((q.levels + 1) / 2)
  if priority ≤ firstLevel then 0 else min (priority - firstLevel) (q.levels - 1)

def size (q : PriorityQueue) : Nat := q.fifo.size q.bodies

def find (q : PriorityQueue) (position : SequenceNumber) (cursor : Option QueueCursor) :
    Option Nat × Option QueueCursor :=
  let (i, cursor) := q.fifo.find q.bodies position cursor
  (i.bind fun i => (q.fifo.messages[i]?).bind (·.holder), cursor)

def findAt (q : PriorityQueue) (cursor : QueueCursor) : Option Nat := (q.find cursor.position none).1

/-- `messages[p].clean()`. -/
def cleanLevel (q : PriorityQueue) (p : Nat) : PriorityQueue :=
  { q with messages := q.messages.modify p (·.clean q.bodies) }

def deleted (q : PriorityQueue) (c : QueueCursor) : Bool × PriorityQueue :=
  match q.fifo.findAt q.bodies c with
  | none => (false, q)
  | some i =>
    match (q.fifo.messages[i]?).bind (·.holder) with
    | none => (false, q)
    | some a =>
      let q := { q with bodies := q.bodies.modify (some a) (·.setState .deleted) }
      let q := q.cleanLevel (((q.bodies.get (some a)).map (·.priority)).getD 0)
      let fifo := { q.fifo with messages := q.fifo.messages.modify i ({ · with holder := none }) }
      (true, { q with fifo := fifo.clean q.bodies })

/-- `publish(published)`. The counter and the level keep what was done to them
when the level or the index throws. -/
def publish (q : PriorityQueue) (published : Message) : Except String Unit × PriorityQueue :=
  let level := q.getPriorityLevel published
  let address := q.bodies.length
  let q := { q with counters := q.counters.modify level (· + 1) }
  match q.messages[level]?, q.counters[level]? with
  | some d, some id =>
    let bodies := q.bodies ++ [{ message := published, priority := level }]
    match d.publish bodies { body := some address, id := id } with
    | (.error e, _, d) => (.error e, { q with messages := q.messages.set level d })
    | (.ok _, bodies, d) =>
      let pointer : MessagePointer := { holder := some address, id := published.sequence }
      let (r, bodies, fifo) := q.fifo.publish bodies pointer
      (r.map fun _ => (), { q with messages := q.messages.set level d, bodies := bodies, fifo := fifo })
  | _, _ => (.error "no such level", q)

/-- `release(cursor)`. There is no result where the holder of the pointer
released is null, as it is once the message is deleted. -/
def release (q : PriorityQueue) (cursor : QueueCursor) : Option (Option Nat × PriorityQueue) :=
  match q.fifo.release q.bodies cursor with
  | (none, _, _) => some (none, q)
  | (some i, bodies, fifo) =>
    let q := { q with bodies := bodies, fifo := fifo }
    ((fifo.messages[i]?).bind (·.holder)).bind fun a =>
      (q.bodies.get (some a)).map fun b =>
        (some a, { q with messages := q.messages.modify b.priority (·.resetCursors) })

/-- `messages[p].next(ctxt->position[p])`. -/
def nextAt (q : PriorityQueue) (ctxt : List QueueCursor) (p : Nat) : Option MessageHolder × List QueueCursor :=
  match q.messages[p]?, ctxt[p]? with
  | some d, some c =>
    let (i, c) := d.next q.bodies c
    (i.bind (d.messages[·]?), ctxt.set p c)
  | _, _ => (none, ctxt)

/-- The first message at the levels of a list, in its order. -/
def scan (q : PriorityQueue) : List Nat → List QueueCursor → Option MessageHolder × List QueueCursor
  | [], ctxt => (none, ctxt)
  | p :: ps, ctxt =>
    match q.nextAt ctxt p with
    | (some holder, ctxt) => (some holder, ctxt)
    | (none, ctxt) => scan q ps ctxt

/-- The loop over levels in priority order, from `p` on. `fuel` bounds the
number of levels after `p`. -/
def nextLoop : Nat → PriorityQueue → Priority → List QueueCursor →
    Option MessageHolder × List QueueCursor × PriorityQueue
  | fuel, q, p, ctxt =>
    match q.nextAt ctxt p.current with
    | (some holder, ctxt) => (some holder, ctxt, q)
    | (none, ctxt) =>
      match fuel, q.nextLevel p with
      | fuel + 1, (some p, q) => nextLoop fuel q p ctxt
      | _, (_, q) => (none, ctxt, q)

/-- The context of a cursor, allocated if it has none. -/
def context (q : PriorityQueue) (cursor : QueueCursor) : Nat × QueueCursor × PriorityQueue :=
  match cursor.context with
  | some x => (x, cursor, q)
  | none =>
    let x := q.contexts.length
    (x, { cursor with context := some x },
      { q with contexts := q.contexts ++ [List.replicate q.levels { type := .consumer }] })

/-- The loop over levels: lowest first for a purge, ignoring any fairshare
configuration, and in priority order otherwise. -/
def search (q : PriorityQueue) (type : SubscriptionType) (ctxt : List QueueCursor) :
    Option MessageHolder × List QueueCursor × PriorityQueue :=
  if type = .purge then
    let (holder, ctxt) := q.scan (List.range q.levels) ctxt
    (holder, ctxt, q)
  else
    let (p, q) := q.firstLevel
    nextLoop q.levels q p ctxt

def next (q : PriorityQueue) (cursor : QueueCursor) : Option Nat × QueueCursor × PriorityQueue :=
  let (x, cursor, q) := q.context cursor
  if cursor.type = .replicator then
    -- browse in fifo order
    let (i, cursor) := q.fifo.next q.bodies cursor
    (i.bind fun i => (q.fifo.messages[i]?).bind (·.holder), cursor, q)
  else
    let (holder, ctxt, q) := q.search cursor.type ((q.contexts[x]?).getD [])
    let q := { q with contexts := q.contexts.set x ctxt }
    match holder with
    | some holder => (holder.body, cursor.setPosition (q.bodies.sequenceAt holder.body) 0, q)
    | none => (none, cursor, q)

end PriorityQueue

instance : Messages PriorityQueue where
  Ptr := Nat
  get q a := (q.bodies.get (some a)).map (·.message)
  modify q a f := { q with bodies := q.bodies.modify (some a) f }
  size := PriorityQueue.size
  deleted := PriorityQueue.deleted
  publish := PriorityQueue.publish
  next := PriorityQueue.next
  release := PriorityQueue.release
  find := PriorityQueue.find
  findAt := PriorityQueue.findAt

end QB.Impl
