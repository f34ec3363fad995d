import QpidBroker.Framework.Run
import QpidBroker.Impl.SessionState
import QpidBroker.Spec.RangeSet

/-!
# What a session has sent

The history of the sending end of a session: the frames of its commands, each with the
place it ends at, how many commands the peer has confirmed, where the last flush was, and
the commands that are not completed. Commands are counted from zero and without end, so
that places are ordered as numbers are. From the history it can be said what the sender
should keep (`Consistent`).
-/

namespace QB.Spec

open QB.Impl

/-- A place in all that is sent: so many commands, and so many octets of the next. -/
structure Place where
  command : Nat := 0
  offset : Nat := 0
deriving DecidableEq

namespace Place

instance : LT Place := ⟨fun p q => p.command < q.command ∨ p.command = q.command ∧ p.offset < q.offset⟩

instance : DecidableLT Place := fun p q =>
  inferInstanceAs (Decidable (p.command < q.command ∨ p.command = q.command ∧ p.offset < q.offset))

def point (p : Place) : SessionPoint := { command := BitVec.ofNat 32 p.command, offset := p.offset }

def after (p : Place) (f : SessionFrame) : Place :=
  if f.ends then { command := p.command + 1 } else { p with offset := p.offset + f.encodedSize }

def later (p q : Place) : Place := if p < q then q else p

end Place

/-- Frames, each with the place it ends at. -/
abbrev Track := List (Place × SessionFrame)

namespace Track

/-- The frames that end after a place. -/
def from_ (l : Track) (p : Place) : Track := l.filter fun x => p < x.1

def size (l : Track) : Nat := (l.map fun x => x.2.encodedSize).sum

/-- The place after the frames, the first of which starts at `p`. -/
def last (p : Place) : Track → Place
  | [] => p
  | x :: l => last x.1 l

end Track

/-- The history of the sending end. -/
structure Sent where
  frames : Track := []
  /-- The number of commands that the peer has confirmed. -/
  confirmed : Nat := 0
  /-- Where the last flush was. -/
  flush : Place := {}
  /-- The commands sent and not completed. -/
  incomplete : Set SequenceNumber := ∅

namespace Sent

variable (h : Sent)

def place : Place := h.frames.last {}

/-- The place before all that the peer has not confirmed. -/
def unconfirmed : Place := { command := h.confirmed }

def record (f : SessionFrame) : Sent :=
  if f.isControl then h
  else
    { h with
      frames := h.frames ++ [(h.place.after f, f)]
      incomplete := h.incomplete ∪ {h.place.point.command} }

def recordFlush : Sent := { h with flush := h.place }

/-- The peer has the commands before the point, if it is not after what was sent. -/
def confirm (p : SessionPoint) : Sent :=
  if h.place.point.lt p ∨ h.place.command < Serial.dist p.command h.place.point.command then h
  else { h with confirmed := max h.confirmed (h.place.command - Serial.dist p.command h.place.point.command) }

/-- The peer has completed the commands, and has those up to the first that is not among them. -/
def complete (commands : SequenceSet) : Sent :=
  match commands.ranges with
  | [] => h
  | r :: _ =>
    confirm { h with incomplete := { x ∈ h.incomplete | ∀ q ∈ commands.ranges, x ∉ rangeNumbers q } }
      { command := r.end_ }

end Sent

/-! ## Calls of the sending end -/

/-- A call of the sending end. -/
inductive SenderCall where
  | record (f : SessionFrame)
  | recordFlush
  | confirmed (p : SessionPoint)
  | completed (commands : SequenceSet)
  | expected (p : SessionPoint)
  | setTimeout (seconds : BitVec 32)

/-- A session and what it has sent. -/
abbrev Sender := SessionState × Sent

/-- The state after a call, and the history. -/
def SenderCall.step (s : Sender) : SenderCall → Option Sender
  | .record f => some ((s.1.senderRecord f).1, s.2.record f)
  | .recordFlush => some (s.1.senderRecordFlush, s.2.recordFlush)
  | .confirmed p => some ((s.1.senderConfirmed p).1, s.2.confirm p)
  | .completed commands => some ((s.1.senderCompleted commands).1, s.2.complete commands)
  | .expected _ => some s
  | .setTimeout seconds => some (s.1.setTimeout seconds, s.2)

/-- The number of commands that are told apart, from those before to the next one. -/
def commandWindow : Nat := 2 ^ 31 - 2

/-- The state is one that a confirmation can be used in: the frames are kept for replay, or
there is no limit to what is not confirmed, or nothing would be confirmed. -/
def Confirms (s : SessionState) (command : SequenceNumber) : Prop :=
  s.timeout ≠ 0 ∨ s.replayHardLimit = 0 ∨ s.sender.replayPoint.command.lt command = false

instance (s : SessionState) (command : SequenceNumber) : Decidable (Confirms s command) :=
  inferInstanceAs (Decidable (_ ∨ _))

/-- The condition on a call, in the state before it. Frames are in sequence; the commands to
replay and those not completed lie in a window; the timeout is not switched on or off after a
frame was recorded; what can be replayed was kept when it is confirmed; and completed are only
commands that were sent, in ranges as sets keep them. -/
def SenderCall.Ok (s : SessionState) : SenderCall → Prop
  | .record f => (s.sender.sendPoint.advance f).isOk = true ∧
      Serial.dist s.sender.replayPoint.command s.sender.sendPoint.command < commandWindow ∧
      ∀ q ∈ s.sender.incomplete.ranges, Serial.dist q.begin_ s.sender.sendPoint.command < commandWindow
  | .recordFlush => True
  | .confirmed p => Confirms s p.command
  | .completed commands =>
      (∀ q ∈ commands.ranges, Serial.dist q.end_ s.sender.sendPoint.command <
        Serial.dist q.begin_ s.sender.sendPoint.command ∧
        Serial.dist q.begin_ s.sender.sendPoint.command ≤ commandWindow) ∧
      ∀ q ∈ commands.ranges.head?, Confirms s q.end_
  | .expected _ => True
  | .setTimeout seconds => s.stateful = false ∨ (seconds = 0 ↔ s.timeout = 0)

instance (s : SessionState) : (call : SenderCall) → Decidable (call.Ok s)
  | .record _ => inferInstanceAs (Decidable (_ ∧ _ ∧ _))
  | .recordFlush => inferInstanceAs (Decidable True)
  | .confirmed _ => inferInstanceAs (Decidable (Confirms ..))
  | .completed _ => inferInstanceAs (Decidable (_ ∧ _))
  | .expected _ => inferInstanceAs (Decidable True)
  | .setTimeout _ => inferInstanceAs (Decidable (_ ∨ _))

/-! ## What the sender should keep -/

namespace Sent

variable (h : Sent)

/-- Where the replay list starts: without a timeout nothing is kept, and it stays at the start. -/
def replay (timeout : BitVec 32) : Place := if timeout = 0 then {} else h.unconfirmed

/-- Where the frames start that were not flushed. -/
def flushed (timeout : BitVec 32) : Place := h.flush.later (h.replay timeout)

end Sent

/-- The sender's state is that of its history: the three points are in order, the replay list has the
frames from the replay point on, or none without a timeout, the totals are the sizes of the
frames from the replay point and from the flush point on, and the commands that are not
completed are known. -/
structure Consistent (s : SessionState) (h : Sent) : Prop where
  sendPoint : s.sender.sendPoint = h.place.point
  replayPoint : s.sender.replayPoint = (h.replay s.timeout).point
  flushPoint : s.sender.flushPoint = (h.flushed s.timeout).point
  replay_le_flush : s.sender.replayPoint.le s.sender.flushPoint = true
  flush_le_send : s.sender.flushPoint.le s.sender.sendPoint = true
  replayList : s.sender.replayList = if s.timeout = 0 then [] else (h.frames.from_ (h.replay s.timeout)).map (·.2)
  replaySize : s.sender.replaySize = (h.frames.from_ (h.replay s.timeout)).size
  unflushedSize : s.sender.unflushedSize = (h.frames.from_ (h.flushed s.timeout)).size
  incomplete : ∀ x, ∃ c, s.sender.incomplete.contains x = some c ∧ (c = true ↔ x ∈ h.incomplete)

end QB.Spec
