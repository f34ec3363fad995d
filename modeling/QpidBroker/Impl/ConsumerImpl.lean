import QpidBroker.Impl.Credit
import QpidBroker.Impl.Queue

/-!
# A subscription of a 0-10 session

`SemanticStateConsumerImpl` of `broker/SemanticState.{h,cpp}`, but for what it
does with its queue and its session. A selector is the predicate it computes.
-/

namespace QB.Impl

structure ConsumerImpl where
  tag : String := ""
  ackExpected : Bool := true
  acquire : Bool := true
  blocked : Bool := true
  credit : Credit := {}
  selector : Option (Message → Bool) := none
  notifyEnabled : Bool := true

namespace ConsumerImpl

def filter (c : ConsumerImpl) (m : Message) : Bool := c.selector.all (· m)

def checkCredit (c : ConsumerImpl) (m : Message) : Bool := c.credit.check 1 m.getRequiredCredit

def allocateCredit (c : ConsumerImpl) (m : Message) : ConsumerImpl :=
  { c with credit := c.credit.consume 1 m.getRequiredCredit }

def accept (c : ConsumerImpl) (m : Message) : Bool × ConsumerImpl :=
  let blocked := !c.checkCredit m
  (!blocked, { c with blocked := blocked })

def setWindowMode (c : ConsumerImpl) : ConsumerImpl := { c with credit := c.credit.setWindowMode true }

def setCreditMode (c : ConsumerImpl) : ConsumerImpl := { c with credit := c.credit.setWindowMode false }

def addByteCredit (c : ConsumerImpl) (value : BitVec 32) : ConsumerImpl :=
  { c with credit := c.credit.addByteCredit value }

def addMessageCredit (c : ConsumerImpl) (value : BitVec 32) : ConsumerImpl :=
  { c with credit := c.credit.addMessageCredit value }

def stop (c : ConsumerImpl) : ConsumerImpl := { c with credit := c.credit.cancel }

end ConsumerImpl

instance : Subscriber ConsumerImpl where
  filter := ConsumerImpl.filter
  accept := ConsumerImpl.accept

end QB.Impl
