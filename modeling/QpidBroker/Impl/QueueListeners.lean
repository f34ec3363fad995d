import Mathlib.Data.List.Basic

/-!
# Listeners of a queue

`broker/QueueListeners.{h,cpp}`: the consumers that wait to be told of a message.
A consumer is named by a number. Its flag `inListeners` is set where it is
added to one of the lists and cleared where it is taken out, so it is read off
the lists.
-/

namespace QB.Impl

structure QueueListeners where
  consumers : List Nat := []
  browsers : List Nat := []
deriving DecidableEq

/-- Those to notify, once the lock is not held. -/
structure NotificationSet where
  browsers : List Nat := []
  consumer : Option Nat := none
deriving DecidableEq

/-- `notify`: those notified, in order. -/
def NotificationSet.notify (set : NotificationSet) : List Nat := set.consumer.toList ++ set.browsers

namespace QueueListeners

def inListeners (l : QueueListeners) (c : Nat) : Bool := l.consumers.contains c || l.browsers.contains c

def addListener (l : QueueListeners) (c : Nat) (acquires : Bool) : QueueListeners :=
  if l.inListeners c then l
  else if acquires then { l with consumers := l.consumers ++ [c] }
  else { l with browsers := l.browsers ++ [c] }

/-- `populate(set)`: one consumer and all browsers. What the set held before is
written over. -/
def populate (l : QueueListeners) (set : NotificationSet) : QueueListeners × NotificationSet :=
  match l.consumers with
  | c :: consumers => ({ consumers := consumers }, { browsers := l.browsers, consumer := some c })
  | [] => ({ consumers := [] }, { browsers := l.browsers, consumer := set.consumer })

end QueueListeners

end QB.Impl
