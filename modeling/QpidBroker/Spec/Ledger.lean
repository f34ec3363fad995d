import QpidBroker.Framework.Serial
import QpidBroker.Impl.MessageDeque

/-!
# What a message container is for

A ledger of messages: those published and not deleted since, in the order they
were published, each with its state. It is what the calls made so far say,
and knows nothing of how a container finds a message or what it keeps of those
deleted.
-/

namespace QB.Spec

open Impl

/-- The messages published and not deleted, oldest first. -/
abbrev Ledger := List Message

namespace Ledger

/-- The message published under a number, if it has not been deleted. -/
def lookup (l : Ledger) (p : SequenceNumber) : Option Message := l.find? fun m => m.sequence = p

/-- The number of messages available for delivery. -/
def available (l : Ledger) : Nat := l.countP fun m => m.state = .available

def update (l : Ledger) (p : SequenceNumber) (f : Message → Message) : Ledger :=
  l.map fun m => if m.sequence = p then f m else m

/-- What a call says of the messages. -/
def call (l : Ledger) : MessageDeque.Call → Ledger
  | .publish m => l ++ [m.setState .available]
  | .deleted c => if c.valid then l.filter fun m => m.sequence ≠ c.position else l
  | .release c => if c.valid then l.update c.position fun m => m.setState .available else l
  | .acquire p => l.update p fun m => (FifoDistributor.acquire m).2
  | .clean => l
  | .foreach => l

end Ledger

/-- The message a deque holds under a number, if that is not deleted. -/
def messageAt (d : MessageDeque) (p : SequenceNumber) : Option Message :=
  Ledger.lookup (d.messages.filter fun m => m.state ≠ .deleted) p

end QB.Spec

namespace QB.Impl.MessageDeque

open Serial IndexedDeque

/-- The numbers stay inside one half: a message is published ahead of those the
deque holds once the deleted records at its tail are popped, so its number may
be that of a deleted record or precede it. Only an acquired message is
released. -/
def Fits (d : MessageDeque) : Call → Prop
  | .publish m => ∀ x ∈ popTail () m.sequence (IndexedDeque.clean () d).messages, Ahead x.sequence m.sequence
  | .release c => ∀ x ∈ d.messages, x.sequence = c.position → x.state = .acquired
  | _ => True

instance (d : MessageDeque) : (c : Call) → Decidable (Fits d c)
  | .publish _ | .release _ => List.decidableBAll _ _
  | .deleted _ | .acquire _ | .clean | .foreach => .isTrue trivial

end QB.Impl.MessageDeque
