import Mathlib.Data.BitVec

/-!
# Sequence numbers, messages and cursors

`framing/SequenceNumber.h`, `broker/Message.{h,cpp}`, `broker/QueueCursor.{h,cpp}`.

`int32_t` and `uint32_t` values are 32-bit words; a comparison or a
difference that the source makes on `int32_t` reads the word as a signed
number (`BitVec.toInt`).

Assumption: `value - other.value` of two `int32_t` wraps around modulo 2^32.
C++ leaves the result of a signed subtraction that overflows undefined, so a
compiler may answer `operator<` otherwise for numbers half the range or more
apart as signed words; everything proved about numbers that wrap rests on it.
-/

namespace QB.Impl

/-- A 4-byte sequence number that wraps around. -/
abbrev SequenceNumber := BitVec 32

namespace SequenceNumber

/-- `operator-(a, b)`: the difference as an `int32_t`, wrapped around. -/
def sub (a b : SequenceNumber) : Int := (a - b).toInt

/-- `operator<`: `(value - other.value) < 0`. -/
def lt (a b : SequenceNumber) : Bool := decide (sub a b < 0)

/-- `operator<=`, which `boost::less_than_comparable` makes from `operator<`. -/
def le (a b : SequenceNumber) : Bool := !lt b a

end SequenceNumber

inductive MessageState where
  | available
  | acquired
  | deleted
  | unavailable
deriving DecidableEq

/-- `Message::Encoding`: what the broker reads of a message as received. -/
structure Encoding where
  routingKey : String := ""
  isPersistent : Bool := false
  priority : BitVec 8 := 4
  messageSize : BitVec 64 := 0
  /-- `getRequiredCredit` of the 0-10 transfer the message is translated to. -/
  requiredCredit : BitVec 32 := 0
  properties : List (String × String) := []
deriving DecidableEq

/-- `class Message`, without the fields no modelled function reads. `encoding`
is null for a default-constructed message. -/
structure Message where
  encoding : Option Encoding := none
  deliveryCount : Int := -1
  alreadyAcquired : Bool := false
  state : MessageState := .unavailable
  sequence : SequenceNumber := 0
deriving DecidableEq

namespace Message

def setState (m : Message) (s : MessageState) : Message := { m with state := s }

def setSequence (m : Message) (s : SequenceNumber) : Message := { m with sequence := s }

/-- `operator bool`: whether there is an encoding. -/
def toBool (m : Message) : Bool := m.encoding.isSome

def deliver (m : Message) : Message :=
  { m with
    deliveryCount := m.deliveryCount + 1
    alreadyAcquired := m.alreadyAcquired || decide (m.deliveryCount + 1 > 0) }

def undeliver (m : Message) : Message := { m with deliveryCount := m.deliveryCount - 1 }

def resetDeliveryCount (m : Message) : Message :=
  { m with deliveryCount := -1, alreadyAcquired := false }

def getMessageSize (m : Message) : BitVec 64 := (m.encoding.map (·.messageSize)).getD 0

def getRequiredCredit (m : Message) : BitVec 32 := (m.encoding.map (·.requiredCredit)).getD 0

def getRoutingKey (m : Message) : String := (m.encoding.map (·.routingKey)).getD ""

def isPersistent (m : Message) : Bool := (m.encoding.map (·.isPersistent)).getD false

def getPriority (m : Message) : BitVec 8 := (m.encoding.map (·.priority)).getD 0

/-- `getPropertyAsString`: empty if there is no such property. -/
def getPropertyAsString (m : Message) (key : String) : String :=
  ((m.encoding.map (·.properties)).getD [] |>.lookup key).getD ""

@[simp] theorem setState_state (m : Message) (s : MessageState) : (m.setState s).state = s := rfl
@[simp] theorem setState_sequence (m : Message) (s : MessageState) : (m.setState s).sequence = m.sequence := rfl
@[simp] theorem setState_encoding (m : Message) (s : MessageState) : (m.setState s).encoding = m.encoding := rfl

end Message

inductive SubscriptionType where
  | consumer
  | browser
  | purge
  | replicator
deriving DecidableEq

/-- `class QueueCursor`. The shared pointer `context` is the index of the
context among those its queue has allocated. -/
structure QueueCursor where
  type : SubscriptionType := .consumer
  position : SequenceNumber := 0
  version : BitVec 32 := 0
  valid : Bool := false
  context : Option Nat := none
deriving DecidableEq

namespace QueueCursor

def setPosition (c : QueueCursor) (p : SequenceNumber) (v : BitVec 32) : QueueCursor :=
  { c with position := p, version := v, valid := true }

/-- `check(m)`, which reads only the state of `m`. -/
def check (c : QueueCursor) (s : MessageState) : Bool :=
  s = .available || ((c.type = .replicator || c.type = .purge) && s = .acquired)

@[simp] theorem setPosition_type (c : QueueCursor) (p : SequenceNumber) (v : BitVec 32) :
    (c.setPosition p v).type = c.type := rfl
@[simp] theorem setPosition_position (c : QueueCursor) (p : SequenceNumber) (v : BitVec 32) :
    (c.setPosition p v).position = p := rfl
@[simp] theorem setPosition_version (c : QueueCursor) (p : SequenceNumber) (v : BitVec 32) :
    (c.setPosition p v).version = v := rfl
@[simp] theorem setPosition_valid (c : QueueCursor) (p : SequenceNumber) (v : BitVec 32) :
    (c.setPosition p v).valid = true := rfl
@[simp] theorem setPosition_context (c : QueueCursor) (p : SequenceNumber) (v : BitVec 32) :
    (c.setPosition p v).context = c.context := rfl

theorem check_consumer {c : QueueCursor} (h : c.type = .consumer) (s : MessageState) :
    c.check s = decide (s = .available) := by
  simp [check, h]

end QueueCursor

end QB.Impl
