import QpidBroker.Framework.Serial
import QpidBroker.Impl.PriorityQueue

/-!
# Consumers fed from a container

A container of messages with the cursors of any number of consumers, each moved
only by `next`, and a log of what was published, released and returned. A
message has been offered to a consumer if `next` returned it to that consumer
after it was last published or released (`OfferedSince`). What a deque and a
priority queue are asked along the way is said at the end.
-/

namespace QB.Spec

open Impl

/-- Something that happened to the message under a number. -/
inductive Event where
  | published (p : SequenceNumber)
  | released (p : SequenceNumber)
  | returned (k : Nat) (p : SequenceNumber)
deriving DecidableEq

/-- In a log, newest event first: the message under `p` was returned to
consumer `k` after the later of its publication and its last release. -/
def OfferedSince (k : Nat) (p : SequenceNumber) : List Event → Prop
  | [] => False
  | .published q :: log | .released q :: log => q ≠ p ∧ OfferedSince k p log
  | .returned j q :: log => j = k ∧ q = p ∨ OfferedSince k p log

instance (k : Nat) (p : SequenceNumber) : (log : List Event) → Decidable (OfferedSince k p log)
  | [] => .isFalse id
  | .published _ :: log | .released _ :: log =>
    have := instDecidableOfferedSince k p log
    inferInstanceAs (Decidable (_ ∧ _))
  | .returned _ _ :: log =>
    have := instDecidableOfferedSince k p log
    inferInstanceAs (Decidable (_ ∨ _))

/-- A container, the cursors of its consumers, and the log, newest event first. -/
structure Feed (M : Type) where
  messages : M
  cursors : List QueueCursor := []
  log : List Event := []

namespace Feed

/-- What may be done: a new consumer, a call on the container, or the next
message for a consumer. -/
inductive Op where
  | subscribe
  | publish (added : Message)
  | deleted (cursor : QueueCursor)
  | release (cursor : QueueCursor)
  | acquire (position : SequenceNumber)
  | next (k : Nat)

variable {M : Type} [Messages M]

/-- An event about the message a pointer leads to, if there is one. -/
def note (event : SequenceNumber → Event) (q : M) (r : Option (Messages.Ptr M)) (log : List Event) : List Event :=
  match r.bind (Messages.get q) with
  | some m => event m.sequence :: log
  | none => log

def step (f : Feed M) : Op → Option (Feed M)
  | .subscribe => some { f with cursors := f.cursors ++ [{ type := .consumer }] }
  | .publish m =>
    match Messages.publish f.messages m with
    | (.ok _, q) => some { f with messages := q, log := .published m.sequence :: f.log }
    | (.error _, q) => some { f with messages := q }
  | .deleted c => some { f with messages := (Messages.deleted f.messages c).2 }
  | .release c =>
    (Messages.release f.messages c).map fun (r, q) =>
      { f with messages := q, log := note .released q r f.log }
  | .acquire p =>
    match (Messages.find f.messages p none).1 with
    | some ptr =>
      some { f with messages := Messages.modify f.messages ptr fun m => (FifoDistributor.acquire m).2 }
    | none => some f
  | .next k =>
    f.cursors[k]?.map fun c =>
      let (r, c, q) := Messages.next f.messages c
      { messages := q, cursors := f.cursors.set k c, log := note (.returned k) q r f.log }

/-- When `next` returns null to a consumer, every available message has been
offered to it. -/
def NothingStranded (f : Feed M) : Prop :=
  ∀ k c, f.cursors[k]? = some c → (Messages.next f.messages c).1 = none →
    ∀ ptr m, Messages.get f.messages ptr = some m → m.state = .available → OfferedSince k m.sequence f.log

end Feed

end QB.Spec

namespace QB.Impl

open Serial Spec IndexedDeque Record

/-- A message under a number that is not deleted. -/
def Alive {M : Type} [Messages M] (q : M) (p : SequenceNumber) : Prop :=
  ∃ ptr m, Messages.get q ptr = some m ∧ m.sequence = p ∧ m.state ≠ .deleted

/-- `release` returns null and leaves everything as it is. -/
def Refuses {M : Type} [Messages M] (q : M) (c : QueueCursor) : Prop :=
  Messages.release q c = some (none, q)

/-! ## What a container is asked -/

namespace MessageDeque

/-- A message is published ahead of the records held, but for the deleted tail
that is popped, and of the positions of the cursors, and a release does not
bring the version round to a cursor's. -/
def Within (f : Feed MessageDeque) : Feed.Op → Prop
  | .publish m =>
      (∀ x ∈ popTail () m.sequence (IndexedDeque.clean () f.messages).messages, Ahead x.sequence m.sequence) ∧
      ∀ c ∈ f.cursors, c.valid = true → Ahead c.position m.sequence
  | .release c => (f.messages.release c).1.isSome = true →
      ∀ c' ∈ f.cursors, c'.valid = true → c'.version ≠ f.messages.version + 1
  | _ => True

instance (f : Feed MessageDeque) : (op : Feed.Op) → Decidable (Within f op)
  | .publish _ => inferInstanceAs (Decidable (_ ∧ _))
  | .release _ => inferInstanceAs (Decidable (_ → _))
  | .subscribe | .deleted _ | .acquire _ | .next _ => .isTrue trivial

/-- A message is published ahead of the records held once the deleted ones at
the tail that do not precede it are popped. -/
def InHalf (f : Feed MessageDeque) : Feed.Op → Prop
  | .publish m => ∀ x ∈ popTail () m.sequence (IndexedDeque.clean () f.messages).messages,
      Ahead x.sequence m.sequence
  | _ => True

/-- No record that is deleted and still held is released. -/
def SparesDeleted (f : Feed MessageDeque) : Feed.Op → Prop
  | .release c => c.valid = true → ∀ x ∈ f.messages.messages, x.sequence = c.position → x.state ≠ .deleted
  | _ => True

instance (f : Feed MessageDeque) : (op : Feed.Op) → Decidable (InHalf f op)
  | .publish _ => List.decidableBAll _ _
  | .subscribe | .deleted _ | .release _ | .acquire _ | .next _ => .isTrue trivial

end MessageDeque

namespace PriorityQueue

def nextId (q : PriorityQueue) (p : Nat) : SequenceNumber := (q.counters[p]?).getD 0 + 1

/-- The records of the index that publishing under a number leaves: not the
deleted ones at the tail that do not precede it. -/
def indexed (q : PriorityQueue) (p : SequenceNumber) : List MessagePointer :=
  popTail q.bodies p (q.fifo.clean q.bodies).messages

/-- The number of the message is ahead of those left in the index, and the next
identifier of its level ahead of those in the level. -/
structure Fits (q : PriorityQueue) (m : Message) : Prop where
  fifo : ∀ x ∈ q.indexed m.sequence, Ahead (getSequence q.bodies x) m.sequence
  level : ∀ d ∈ q.messages[q.getPriorityLevel m]?, ∀ x ∈ (d.clean q.bodies).messages,
    Ahead x.id (q.nextId (q.getPriorityLevel m))

/-- A message is published ahead of the index, and its identifier ahead of its
level and of the cursors there; a release does not bring the version of its
level round to that of a cursor. -/
def Within (f : Feed PriorityQueue) : Feed.Op → Prop
  | .publish m => Fits f.messages m ∧
      ∀ ctxt ∈ f.messages.contexts, ∀ c ∈ ctxt[f.messages.getPriorityLevel m]?, c.valid = true →
        Ahead c.position (f.messages.nextId (f.messages.getPriorityLevel m))
  | .release c => ∀ r ∈ f.messages.release c, ∀ a ∈ r.1, ∀ b ∈ f.messages.bodies[a]?,
      ∀ d ∈ f.messages.messages[b.priority]?, ∀ ctxt ∈ f.messages.contexts,
        ∀ c' ∈ ctxt[b.priority]?, c'.valid = true → c'.version ≠ d.version + 1
  | _ => True

instance (q : PriorityQueue) (m : Message) : Decidable (Fits q m) :=
  decidable_of_iff (_ ∧ _) ⟨fun h => ⟨h.1, h.2⟩, fun h => ⟨h.fifo, h.level⟩⟩

instance (f : Feed PriorityQueue) : (op : Feed.Op) → Decidable (Within f op)
  | .publish _ => inferInstanceAs (Decidable (_ ∧ _))
  | .release c => inferInstanceAs (Decidable (∀ r ∈ f.messages.release c, _))
  | .subscribe | .deleted _ | .acquire _ | .next _ => .isTrue trivial

/-- A message is published ahead of what is left of the index once the deleted
records at its tail are popped, and of its level. -/
def InHalf (f : Feed PriorityQueue) : Feed.Op → Prop
  | .publish m => Fits f.messages m
  | _ => True

instance (f : Feed PriorityQueue) : (op : Feed.Op) → Decidable (InHalf f op)
  | .publish m => inferInstanceAs (Decidable (Fits f.messages m))
  | .subscribe | .deleted _ | .release _ | .acquire _ | .next _ => .isTrue trivial

/-- The message fits, and no level comes to hold half of all identifiers. -/
def FitsShort (q : PriorityQueue) (m : Message) : Prop :=
  Fits q m ∧ ∀ d ∈ (q.publish m).2.messages, d.messages.length < 2 ^ 31

instance (q : PriorityQueue) (m : Message) : Decidable (FitsShort q m) := inferInstanceAs (Decidable (_ ∧ _))

/-- When a message refused is offered again: there was no context, and a
fairshare queue has not reached the limit of its level, or has no message at another. -/
def Reoffers (q : PriorityQueue) (c : QueueCursor) (a : Nat) : Prop :=
  c.context = none ∧ ∀ f ∈ q.fairshare, f.limitReached.1 = false ∨
    ∀ (a' : Nat) (b b' : Body), q.bodies[a]? = some b → q.bodies[a']? = some b' →
      b'.message.state = .available → b'.priority = b.priority

end PriorityQueue

end QB.Impl
