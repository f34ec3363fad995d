import QpidBroker.Spec.PagedQueue

/-!
# Seeking in a message container

`find(position, cursor)` and then `next(cursor)`, as `Queue::seek` and the dispatch after it
make the calls. What a seek should do is said of the messages held, in their order: no message
is skipped and none comes twice.
-/

namespace QB.Spec.Seek

open Impl Serial

/-- The first message that the cursor stops at, of those whose number `f` holds of. -/
def first (c : QueueCursor) (held : List Message) (f : SequenceNumber → Bool) : Option Message :=
  held.find? fun m => c.check m.state && f m.sequence

/-- The message at `p` is returned and then the first after it, or none is and then the first that
does not come before `p`. -/
def Exact (c : QueueCursor) (p : SequenceNumber) (held : List Message) (r : Option Message × Option Message) : Prop :=
  (∃ m, r.1 = some m ∧ m.sequence = p ∧ r.2 = first c held fun n => p.lt n) ∨
    (r.1 = none ∧ r.2 = first c held fun n => p.le n)

/-- The numbers lie in one half of the number space, where `<` is an order. -/
def OneHalf (l : List SequenceNumber) : Prop := ∃ b, ∀ n ∈ l, dist b n + 1 < 2 ^ 31

/-- What `find` returns, and then `next`. -/
def deque (d : MessageDeque) (p : SequenceNumber) (c : QueueCursor) : Option Message × Option Message :=
  let r := d.find p (some c)
  (r.1.bind (d.messages[·]?), (d.next (r.2.getD c)).1.bind (d.messages[·]?))

def map (q : MessageMap) (p : SequenceNumber) (c : QueueCursor) : Option Message × Option Message :=
  let r := q.find p (some c)
  (r.1.bind q.lookup, (q.next (r.2.getD c)).1.bind q.lookup)

def paged (q : PagedQueue) (p : SequenceNumber) (c : QueueCursor) : Option Message × Option Message :=
  let r := q.find p (some c)
  let n := r.2.2.next (r.2.1.getD c)
  ((r.1.bind r.2.2.get).map face, (n.1.bind n.2.2.get).map face)

/-- No assertion fails in the two calls. -/
def Stands (q : PagedQueue) (p : SequenceNumber) (c : QueueCursor) : Prop :=
  let r := q.find p (some c)
  (r.2.2.next (r.2.1.getD c)).2.2.aborted = false

/-- A message is held at `p`, or the first one after `p` is none that the cursor stops at. -/
def HeldOrPassed (q : MessageMap) (p : SequenceNumber) (c : QueueCursor) : Prop :=
  ∀ e ∈ q.messages.find? (fun e => !e.1.lt p), e.1 = p ∨ c.check e.2.state = false

/-- The number that is in the cursor after `find`: the version if a page begins at `p` or before. -/
def left (q : PagedQueue) (p : SequenceNumber) (c : QueueCursor) : Option SequenceNumber :=
  if (q.pageOf p).isSome then some q.version else if c.valid then some c.position else none

/-- Each message that the cursor stops at comes after that number if and only if it comes after `p`. -/
def SameSide (q : PagedQueue) (p : SequenceNumber) (c : QueueCursor) : Prop :=
  ∀ x ∈ left q p c, ∀ m ∈ PagedQueue.all q.view, c.check m.state = true →
    (x.lt m.sequence = true ↔ p.lt m.sequence = true)

end QB.Spec.Seek
