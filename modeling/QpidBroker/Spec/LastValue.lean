import QpidBroker.Framework.Run
import QpidBroker.Framework.Serial
import QpidBroker.Impl.MessageMap

/-!
# What a last value queue is for

Under each key, the message published last, until it is deleted. What the calls
made so far say of it (`ofCalls`) knows nothing of sequence maps and indexes.
-/

namespace QB.Spec

open Impl

/-- The message under each key. -/
abbrev LastValue := String → Option Message

namespace LastValue

/-- What a call says of the messages, of which `key` is the property. -/
def call (key : String) (v : LastValue) : MessageMap.Call → LastValue
  | .publish m => fun k => if k = m.getPropertyAsString key then some m else v k
  | .update m => fun k => if k = m.getPropertyAsString key then some m else v k
  | .deleted c => fun k => (v k).filter fun m => m.sequence ≠ c.position
  | .acquire _ => v
  | .release _ => v

/-- The newest message published under each key, unless it has since been deleted. -/
def ofCalls (key : String) (calls : List MessageMap.Call) : LastValue :=
  calls.foldl (call key) fun _ => none

/-- What is the same in all copies of a message. -/
def content (m : Message) : Option Encoding × SequenceNumber := (m.encoding, m.sequence)

/-- Two maps that hold the same messages, one under each key. -/
structure InBijection (q : MessageMap) : Prop where
  keys : (q.index.map Prod.fst).Nodup
  numbers : (q.messages.map Prod.fst).Nodup
  under_number {k : String} {m : Message} : q.index.lookup k = some m →
    q.getKey m = k ∧ (q.lookup m.sequence).map content = some (content m)
  under_key {p : SequenceNumber} {m : Message} : q.lookup p = some m →
    m.sequence = p ∧ (q.index.lookup (q.getKey m)).map content = some (content m)

def published : MessageMap.Call → Option Message
  | .publish m => some m
  | .update m => some m
  | .deleted _ => none
  | .acquire _ => none
  | .release _ => none

/-- Numbers increase: one that is published is ahead of those held. -/
def Increasing (q : MessageMap) (a : MessageMap.Call) : Prop :=
  ∀ m ∈ published a, ∀ e ∈ q.messages, Serial.Ahead e.1 m.sequence

instance (q : MessageMap) (a : MessageMap.Call) : Decidable (Increasing q a) :=
  inferInstanceAs (Decidable (∀ m ∈ published a, _))

/-- Calls made one after the other. -/
abbrev Calls : MessageMap → List MessageMap.Call → MessageMap → Prop :=
  Run (fun q a => some (q.call a)) Increasing

/-- The message published last under a number has been replaced by one with its key. -/
def Replaced (key : String) (calls : List MessageMap.Call) (p : SequenceNumber) : Prop :=
  ∃ before between after a b m m', calls = before ++ a :: between ++ b :: after ∧
    published a = some m ∧ published b = some m' ∧ m.sequence = p ∧
    m'.getPropertyAsString key = m.getPropertyAsString key ∧
    ∀ c ∈ between ++ b :: after, ∀ m ∈ published c, m.sequence ≠ p

end LastValue

end QB.Spec
