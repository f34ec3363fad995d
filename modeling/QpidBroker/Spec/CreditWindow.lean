import QpidBroker.Impl.ConsumerImpl

/-!
# A subscription and what it has delivered

A consumer of a session, with the deliveries it made. Of a delivery in window mode that
is not completed, the window counts one message and the credit the message needs, each
if that kind of credit was limited when the delivery was made.
-/

namespace QB.Spec

open Impl

/-- What `DeliveryRecord` has of credit, and which kinds of credit were limited at the delivery. -/
structure Delivered where
  credit : BitVec 32
  windowing : Bool
  completed : Bool := false
  messages : Bool
  bytes : Bool
deriving DecidableEq

structure Subscription where
  consumer : ConsumerImpl := {}
  records : List Delivered := []

namespace Subscription

/-- `flush` is a number of deliveries and a `stop`. -/
inductive Op where
  | setMode (windowing : Bool)
  | addMessageCredit (value : BitVec 32)
  | addByteCredit (value : BitVec 32)
  | stop
  | deliver (m : Message)
  | complete (i : Nat)

def current (s : Subscription) : CreditPair := s.consumer.credit.current

/-- A message is delivered if there is credit for it; a record is completed once. -/
def step (s : Subscription) : Op → Option Subscription
  | .setMode b => some { s with consumer := if b then s.consumer.setWindowMode else s.consumer.setCreditMode }
  | .addMessageCredit v => some { s with consumer := s.consumer.addMessageCredit v }
  | .addByteCredit v => some { s with consumer := s.consumer.addByteCredit v }
  | .stop => some { s with consumer := s.consumer.stop }
  | .deliver m =>
    if s.consumer.checkCredit m then
      some ⟨s.consumer.allocateCredit m, s.records ++ [{
        credit := m.getRequiredCredit
        windowing := s.consumer.credit.windowing
        messages := !s.current.messages.unlimited
        bytes := !s.current.bytes.unlimited }]⟩
    else none
  | .complete i => s.records[i]?.map fun r => if r.completed then s else
      ⟨{ s.consumer with credit := s.consumer.credit.moveWindow 1 r.credit },
        s.records.modify i ({ · with completed := true })⟩

/-- What deliveries made in window mode and not completed amount to. -/
def outstanding (weight : Delivered → Nat) (l : List Delivered) : Nat :=
  (l.map fun r => if r.windowing && !r.completed then weight r else 0).sum

def messageWeight (r : Delivered) : Nat := if r.messages then 1 else 0

def byteWeight (r : Delivered) : Nat := if r.bytes then r.credit.toNat else 0

/-- What is used of the window is what is outstanding. -/
def Exact (s : Subscription) : Prop :=
  s.consumer.credit.window.messages.used.toNat = outstanding messageWeight s.records ∧
    s.consumer.credit.window.bytes.used.toNat = outstanding byteWeight s.records

/-- One more use of limited credit fits the counter. -/
def Fits (c : CreditBalance) (value : BitVec 32) : Prop := c.unlimited = false → c.used.toNat + value.toNat < 2 ^ 32

instance (c : CreditBalance) (value : BitVec 32) : Decidable (Fits c value) := inferInstanceAs (Decidable (_ → _))

/-- A delivery's credit fits what is used of the window; it is completed in the mode it was made in, while
the same kinds of credit are limited. -/
def Regular (s : Subscription) : Op → Prop
  | .deliver m => s.consumer.credit.windowing = true →
      Fits s.current.messages 1 ∧ Fits s.current.bytes m.getRequiredCredit
  | .complete i => ∀ r ∈ s.records[i]?, r.completed = false → r.windowing = s.consumer.credit.windowing ∧
      (r.windowing = true → r.messages = !s.current.messages.unlimited ∧ r.bytes = !s.current.bytes.unlimited)
  | _ => True

instance (s : Subscription) : (op : Op) → Decidable (s.Regular op)
  | .deliver _ => inferInstanceAs (Decidable (_ → _))
  | .complete i => inferInstanceAs (Decidable (∀ r ∈ s.records[i]?, _))
  | .setMode _ | .addMessageCredit _ | .addByteCredit _ | .stop => .isTrue trivial

/-- A use of credit that was there: unlimited credit stays; of a window no more is used than
was granted, and of a balance what is used is taken. -/
def Spent (windowing : Bool) (c c' : CreditBalance) (value : BitVec 32) : Prop :=
  if c.unlimited then c' = c
  else if windowing then c'.used.toNat = c.used.toNat + value.toNat ∧ c'.used ≤ c'.balance
  else c'.balance.toNat + value.toNat = c.balance.toNat

/-- A delivery spends credit of both kinds; a grant does not lower what is granted. -/
def Sound (s t : Subscription) : Op → Prop
  | .deliver m => Spent s.consumer.credit.windowing s.current.messages t.current.messages 1 ∧
      Spent s.consumer.credit.windowing s.current.bytes t.current.bytes m.getRequiredCredit
  | .addMessageCredit _ => s.current.messages.balance ≤ t.current.messages.balance
  | .addByteCredit _ => s.current.bytes.balance ≤ t.current.bytes.balance
  | _ => True

end Subscription

end QB.Spec
