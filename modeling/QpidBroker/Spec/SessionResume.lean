import QpidBroker.Spec.SessionReplay

/-!
# Two ends of a session

A sender, a receiver, and the frames on the way between them, in order. On a disconnection the
frames on the way are lost. The session is resumed as `amqp_0_10/SessionHandler.cpp` does it:
the receiver's expected point goes to the sender, which returns what is to be replayed; the point
that the replay starts from, rounded down to its command, is set at the receiver; and the frames
are sent again.
-/

namespace QB.Spec

open QB.Impl

/-- The two ends of a session. The frames the receiver was told to process are kept for the
record. -/
structure Session where
  sender : Sender
  receiver : SessionState := {}
  channel : List SessionFrame := []
  accepted : List SessionFrame := []

/-- What happens in a session. -/
inductive SessionEvent where
  | send (f : SessionFrame)
  | recordFlush
  | confirmed (p : SessionPoint)
  | completed (commands : SequenceSet)
  | deliver
  /-- The connection is lost, and the session is resumed. -/
  | resume

namespace Session

variable (u : Session)

/-- The frames of commands that were sent. -/
def sent : List SessionFrame := u.sender.2.frames.map (·.2)

def deliver : Option Session :=
  match u.channel with
  | [] => none
  | f :: fs =>
    match u.receiver.receiverRecord f with
    | (r, .ok first) =>
      some { u with receiver := r, channel := fs, accepted := if first then u.accepted ++ [f] else u.accepted }
    | (_, .error _) => none

def resume : Option Session :=
  match u.sender.1.senderExpected u.receiver.receiver.expected with
  | .error _ => none
  | .ok frames =>
    match u.receiver.receiverSetCommandPoint { command := u.receiver.receiver.expected.command } with
    | (_, .error _) => none
    | (r, .ok ()) => some { u with receiver := r, channel := frames }

/-- The session after an event; none if one of its ends throws. A confirmation or completion that
is refused is not an event of the session. -/
def step : SessionEvent → Option Session
  | .send f =>
    match u.sender.1.senderRecord f with
    | (s, .ok ()) => some { u with sender := (s, u.sender.2.record f), channel := u.channel ++ [f] }
    | (_, .error _) => none
  | .recordFlush => some { u with sender := (u.sender.1.senderRecordFlush, u.sender.2.recordFlush) }
  | .confirmed p => some { u with sender := ((u.sender.1.senderConfirmed p).1, u.sender.2.confirm p) }
  | .completed commands =>
    some { u with sender := ((u.sender.1.senderCompleted commands).1, u.sender.2.complete commands) }
  | .deliver => u.deliver
  | .resume => u.resume

/-- The number of whole commands that the receiver was told to process. -/
def acceptedCommands : Nat := (u.accepted.filter SessionFrame.ends).length

/-- The receiver has all commands before this one, which is less than the window before what was
sent. -/
def Has (command : SequenceNumber) : Prop :=
  ∃ k, k ≤ u.acceptedCommands ∧ u.sender.2.place.command ≤ k + commandWindow ∧ command = BitVec.ofNat 32 k

instance (command : SequenceNumber) : Decidable (u.Has command) := inferInstanceAs (Decidable (∃ k, k ≤ _ ∧ _))

/-- The condition on an event, in the state before it. What is sent are frames of commands in
sequence, with the commands to replay and those not completed in a window; and confirmed and
completed is what the receiver has. -/
def Ok : SessionEvent → Prop
  | .send f => f.isControl = false ∧ SenderCall.Ok u.sender.1 (.record f)
  | .confirmed p => u.Has p.command
  | .completed commands =>
      SenderCall.Ok u.sender.1 (.completed commands) ∧ ∀ q ∈ commands.ranges.head?, u.Has q.end_
  | .recordFlush | .deliver | .resume => True

instance : (event : SessionEvent) → Decidable (u.Ok event)
  | .send _ => inferInstanceAs (Decidable (_ ∧ _))
  | .confirmed p => inferInstanceAs (Decidable (u.Has p.command))
  | .completed commands => inferInstanceAs (Decidable (_ ∧ ∀ q ∈ commands.ranges.head?, u.Has q.end_))
  | .recordFlush | .deliver | .resume => inferInstanceAs (Decidable True)

end Session

/-- The receiver of a connection that loses nothing. -/
def lossless (l : List SessionFrame) : SessionState := l.foldl (fun r f => (r.receiverRecord f).1) {}

end QB.Spec
