import QpidBroker.Impl.MessageDeque
import QpidBroker.Impl.SequenceSet

/-!
# The paged queue

`broker/PagedQueue.{h,cpp}`: the messages of a queue on pages of a file, of which
`maxLoaded` at most are meant to be in memory. A message is found on its page by
subtracting sequence numbers.

* The region of the file behind a page is the list of what was encoded into it
  since the page was last taken into use, each message with its octets
  (`stored`), and the number in its first four octets (`count`). Decoding gives back
  the encoding and the number of a message, not what the broker noted of its
  deliveries.
* A pointer to a message held is the index of its page and its index there.
* Where the code would follow a null pointer there is no result (`none`).
* Of the assertions, those that a call may trip are an outcome: a page in memory can be unloaded
  (`makeRoom`), no page has the number of a new one (`newPage`), a position is not before the first
  message of its page (`find` and `release`). A failed one is noted in `aborted`, and a call that
  leaves it set has no result. Without assertions the first of them would be followed by undefined
  behaviour, and the last by a null pointer. Left out are those on the mapping and the encoding of
  messages, and that a page holds the four octets of its count: a page is one or more of the
  system's.
-/

namespace QB.Impl

namespace SequenceSet

/-- `add(s)`. -/
def plus (s : SequenceSet) (n : SequenceNumber) : SequenceSet := (s.addRange (.point n)).getD s

/-- `remove(s)`. -/
def minus (s : SequenceSet) (n : SequenceNumber) : SequenceSet := (s.removeRange (.point n)).getD s

/-- `contains(s)`. -/
def holds (s : SequenceSet) (n : SequenceNumber) : Bool := (s.contains n).getD false

end SequenceSet

structure Page where
  size : Nat
  isLoaded : Bool := false
  contents : SequenceSet := {}
  acquired : SequenceSet := {}
  messages : List Message := []
  used : Nat := 0
  stored : List (Message × Nat) := []
  count : Nat := 0
deriving DecidableEq

namespace Page

/-- `find(position)`: a negative difference is no index. -/
def find (page : Page) (position : SequenceNumber) : Option Nat :=
  match page.messages with
  | [] => none
  | front :: _ =>
    let index := position.sub front.sequence
    if 0 ≤ index ∧ index.toNat < page.messages.length then some index.toNat else none

/-- What `find(position)` asserts: the position is not before the first message. -/
def covers (page : Page) (position : SequenceNumber) : Bool :=
  page.messages.head?.all fun front => front.sequence.le position

/-- What is done to a message in memory. -/
def modify (page : Page) (i : Nat) (f : Message → Message) : Page :=
  { page with messages := page.messages.modify i f }

/-- The number is removed from both sets. -/
def remove (page : Page) (s : SequenceNumber) : Page :=
  { page with contents := page.contents.minus s, acquired := page.acquired.minus s }

def deleted (page : Page) (s : SequenceNumber) : Option Page :=
  if page.isLoaded then (page.find s).map fun i => (page.modify i (·.setState .deleted)).remove s
  else some (page.remove s)

def release (page : Page) (s : SequenceNumber) : Option Nat × Page :=
  match page.find s with
  | some i =>
    (some i, { page.modify i (·.setState .available) with acquired := page.acquired.minus s })
  | none => (none, { page with acquired := page.acquired.minus s })

/-- `add(message)`, whose encoding takes `encoded` octets. -/
def add (page : Page) (message : Message) (encoded : Nat) : Bool × Page :=
  if encoded > page.size - page.used then (false, page)
  else
    (true, { page with
        used := page.used + encoded
        stored := page.stored ++ [(message, encoded)]
        messages := page.messages ++ [message.setState .available]
        contents := page.contents.plus message.sequence })

def empty (page : Page) : Bool := page.contents.ranges.isEmpty

/-- The loop of `next`, over the messages from the one at `position` on. -/
def nextLoop (version : BitVec 32) : List Message → Nat → SequenceNumber → QueueCursor →
    Option Nat × QueueCursor
  | [], _, _, cursor => (none, cursor)
  | m :: ms, i, position, cursor =>
    let cursor := cursor.setPosition position version
    if cursor.check m.state then (some i, cursor) else nextLoop version ms (i + 1) (position + 1) cursor

def next (page : Page) (version : BitVec 32) (cursor : QueueCursor) : Option Nat × QueueCursor :=
  match page.messages with
  | [] => (none, cursor)
  | front :: _ =>
    let position := cursor.position + 1
    let start := if cursor.valid && !position.lt front.sequence then position else front.sequence
    let cursor := if cursor.valid && !position.lt front.sequence then cursor else cursor.setPosition start version
    let i := (start.sub front.sequence).toNat
    nextLoop version (page.messages.drop i) i start cursor

/-- Called before a page is added to the free list. -/
def clear (page : Page) : Page :=
  { page with isLoaded := false, used := 0, contents := {}, messages := [] }

/-- A message as it is decoded. -/
def reload (page : Page) (message : Message) : Message :=
  { encoding := message.encoding
    sequence := message.sequence
    state :=
      if !page.contents.holds message.sequence then .deleted
      else if page.acquired.holds message.sequence then .acquired else .available }

def load (page : Page) : Page :=
  if page.used > 0 then
    let data := page.stored.take page.count
    { page with
      isLoaded := true
      used := 4 + (data.map (·.2)).sum
      stored := data
      messages := page.messages ++ data.map fun e => page.reload e.1 }
  else { page with isLoaded := true, used := 4, stored := [] }

def unload (page : Page) : Page :=
  { page with
    isLoaded := false
    acquired := page.messages.foldl (fun s m => if m.state = .acquired then s.plus m.sequence else s) page.acquired
    count := page.messages.length
    messages := [] }

end Page

structure PagedQueue where
  name : String := ""
  pageSize : Nat
  maxLoaded : BitVec 32
  used : List (SequenceNumber × Page) := []
  free : List Page := []
  loaded : BitVec 32 := 0
  version : BitVec 32 := 0
  /-- An assertion has failed: the process is at its end. -/
  aborted : Bool := false
deriving DecidableEq

namespace PagedQueue

/-- What is done to the page at an index. -/
def modifyPage (q : PagedQueue) (i : Nat) (f : Page → Page) : PagedQueue :=
  { q with used := q.used.modify i fun e => (e.1, f e.2) }

/-- The last page in memory is unloaded. -/
def unloadLast : List (SequenceNumber × Page) → Option (List (SequenceNumber × Page))
  | [] => none
  | e :: l =>
    match unloadLast l with
    | some l => some (e :: l)
    | none => if e.2.isLoaded then some ((e.1, e.2.unload) :: l) else none

/-- `assert(holds)`. -/
def assert (q : PagedQueue) (holds : Bool) : PagedQueue := { q with aborted := q.aborted || !holds }

/-- Room is made in memory for a page: there has to be one to unload. -/
def makeRoom (q : PagedQueue) : PagedQueue :=
  if q.loaded = q.maxLoaded then
    match unloadLast q.used with
    | some l => { q with used := l, loaded := q.loaded - 1 }
    | none => q.assert false
  else q

def load (q : PagedQueue) (i : Nat) : PagedQueue :=
  let q := q.makeRoom.modifyPage i Page.load
  { q with loaded := q.loaded + 1 }

/-- The page is loaded if it is not. -/
def require (q : PagedQueue) (i : Nat) : PagedQueue :=
  match q.used[i]? with
  | some e => if e.2.isLoaded then q else q.load i
  | none => q

def addPages (q : PagedQueue) (count : Nat) : PagedQueue :=
  { q with free := q.free ++ List.replicate count { size := q.pageSize } }

/-- `used.insert`: nothing happens if there is a page under the number. -/
def insert (l : List (SequenceNumber × Page)) (id : SequenceNumber) (page : Page) : List (SequenceNumber × Page) :=
  match l with
  | [] => [(id, page)]
  | e :: l => if id = e.1 then e :: l else if id.lt e.1 then (id, page) :: e :: l else e :: insert l id page

/-- `newPage(id)`: the index of the page under the number. -/
def newPage (q : PagedQueue) (id : SequenceNumber) : Nat × PagedQueue :=
  let q := q.makeRoom
  let q := if q.free.isEmpty then q.addPages 4 else q
  let q := q.assert (q.used.all fun e => e.1 ≠ id)
  let used := insert q.used id (q.free.headD { size := q.pageSize })
  let i := used.findIdx fun e => e.1 = id
  (i, { q with used := used, free := q.free.tail }.load i)

/-- The last page whose number is not greater, as far as they come in order. -/
def pageOf (q : PagedQueue) (n : SequenceNumber) : Option Nat :=
  match (q.used.takeWhile fun e => e.1.le n).length with
  | 0 => none
  | i + 1 => some i

def findPage (q : PagedQueue) (n : SequenceNumber) (loadIfRequired : Bool) : Option Nat × PagedQueue :=
  match q.pageOf n with
  | none => (none, q)
  | some i => (some i, if loadIfRequired then q.require i else q)

def get (q : PagedQueue) (ptr : Nat × Nat) : Option Message :=
  (q.used[ptr.1]?).bind fun e => e.2.messages[ptr.2]?

def modify (q : PagedQueue) (ptr : Nat × Nat) (f : Message → Message) : PagedQueue :=
  q.modifyPage ptr.1 (·.modify ptr.2 f)

def deleted (q : PagedQueue) (cursor : QueueCursor) : Option (Bool × PagedQueue) :=
  if cursor.valid then
    match q.pageOf cursor.position with
    | none => some (false, q)
    | some i =>
      match q.used[i]? with
      | none => some (false, q)
      | some e => (e.2.deleted cursor.position).map fun page =>
        if page.empty then
          (true, { q with
              loaded := q.loaded - 1
              free := q.free ++ [page.clear]
              used := q.used.eraseIdx i })
        else (true, q.modifyPage i fun _ => page)
  else some (false, q)

/-- The message is added to the page at an index. -/
def addTo (q : PagedQueue) (i : Nat) (added : Message) (encoded : Nat) : Bool × PagedQueue :=
  match q.used[i]? with
  | none => (false, q)
  | some e =>
    let r := e.2.add added encoded
    (r.1, q.modifyPage i fun _ => r.2)

/-- `publish(added)`, whose encoding takes `encoded` octets. -/
def publish (q : PagedQueue) (added : Message) (encoded : Nat) : Except String Unit × PagedQueue :=
  if encoded > q.pageSize then (.error ("Message is larger than page size for queue " ++ q.name), q)
  else
    let last := q.used.length - 1
    let (done, q) := (q.require last).addTo last added encoded
    if done then (.ok (), q)
    else
      let (i, q) := q.newPage added.sequence
      let (done, q) := q.addTo i added encoded
      if done then (.ok (), q) else (.error ("Could not add message to paged queue " ++ q.name), q)

/-- The loop of `next`, over the number of pages that are left. -/
def nextLoop : Nat → Nat → PagedQueue → QueueCursor → Option (Nat × Nat) × QueueCursor × PagedQueue
  | 0, _, q, cursor => (none, cursor, q)
  | n + 1, i, q, cursor =>
    let q := q.require i
    match q.used[i]? with
    | none => (none, cursor, q)
    | some e =>
      match e.2.next q.version cursor with
      | (some k, cursor) => (some (i, k), cursor, q)
      | (none, cursor) => nextLoop n (i + 1) q cursor

def next (q : PagedQueue) (cursor : QueueCursor) : Option (Nat × Nat) × QueueCursor × PagedQueue :=
  if cursor.valid then
    let position := cursor.position + 1
    match q.findPage position true with
    | (some i, q) => nextLoop (q.used.length - i) i q cursor
    | (none, q) =>
      if q.used.head?.any fun e => position.lt e.1 then nextLoop q.used.length 0 q cursor
      else (none, cursor, q)
  else nextLoop q.used.length 0 q cursor

def release (q : PagedQueue) (cursor : QueueCursor) : Option (Nat × Nat) × PagedQueue :=
  if cursor.valid then
    match q.findPage cursor.position true with
    | (none, q) => (none, q)
    | (some i, q) =>
      match q.used[i]? with
      | none => (none, q)
      | some e =>
        let (k, page) := e.2.release cursor.position
        (k.map (i, ·), (q.assert (e.2.covers cursor.position)).modifyPage i fun _ => page)
  else (none, q)

/-- `find(position, cursor)`. The arguments of `setPosition` are the version and the number, in
this order. -/
def find (q : PagedQueue) (position : SequenceNumber) (cursor : Option QueueCursor) :
    Option (Nat × Nat) × Option QueueCursor × PagedQueue :=
  match q.findPage position true with
  | (none, q) => (none, cursor, q)
  | (some i, q) =>
    let q := q.assert ((q.used[i]?).all fun e => e.2.covers position)
    let found := (q.used[i]?).bind fun e => (e.2.find position).map (i, ·)
    let number := ((found.bind q.get).map (·.sequence)).getD position
    (found, cursor.map (·.setPosition q.version number), q)

/-- A call made on the queue. `acquire` is the allocator's, on the message found at a number. -/
inductive Call where
  | publish (added : Message) (encoded : Nat)
  | deleted (cursor : QueueCursor)
  | acquire (position : SequenceNumber)
  | release (cursor : QueueCursor)
  | next (cursor : QueueCursor)
  | find (position : SequenceNumber) (cursor : Option QueueCursor)

/-- The queue, unless an assertion has failed. -/
def alive (q : PagedQueue) : Option PagedQueue := if q.aborted then none else some q

/-- The queue a call leaves, whether it throws or not. -/
def call (q : PagedQueue) : Call → Option PagedQueue
  | .publish m encoded => (q.publish m encoded).2.alive
  | .deleted c => (q.deleted c).bind (·.2.alive)
  | .acquire p =>
    let (found, _, q) := q.find p none
    match found with
    | some ptr => (q.modify ptr fun m => (FifoDistributor.acquire m).2).alive
    | none => q.alive
  | .release c => (q.release c).2.alive
  | .next c => (q.next c).2.2.alive
  | .find p c => (q.find p c).2.2.alive

end PagedQueue

end QB.Impl
