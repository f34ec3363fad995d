import QpidBroker.Impl.SequenceSet

/-!
# Session state

`qpid/SessionState.{h,cpp}`: what the two ends of a session keep so that it can be resumed.

* A call changes the state also where it throws; its outcome is returned beside the state.
* The totals are of type `size_t` and the offsets `uint64_t`. They do not reach 2⁶⁴ octets, but
  a subtraction can go below zero, where it wraps.
* An assertion that fails is an outcome of its own.
* Left out: the identity of the session, which stands in front of the texts of some
  exceptions; what is known to be completed; `setState`.
-/

namespace QB.Impl

/-- What a session reads of an `AMQFrame`. The frame's own header takes 12 octets. -/
structure SessionFrame where
  /-- Whether `getMethod()` is not null. -/
  method : Bool
  /-- `getBody()->type()`. -/
  type : BitVec 8
  firstSegment : Bool
  lastSegment : Bool
  firstFrame : Bool
  lastFrame : Bool
  /-- The encoded body, from the class and the method on if it is a method. -/
  body : Octets
deriving DecidableEq

namespace SessionFrame

def encodedSize (f : SessionFrame) : Nat := 12 + f.body.length

def isControl (f : SessionFrame) : Bool := f.method && f.type == 0

def isCommand (f : SessionFrame) : Bool := f.method && f.type == 1

def starts (f : SessionFrame) : Bool := f.firstSegment && f.firstFrame

def ends (f : SessionFrame) : Bool := f.lastSegment && f.lastFrame

end SessionFrame

/-- The exceptions: `FramingErrorException`, `InvalidArgumentException` and
`ResourceLimitExceededException`; an assertion that fails; and a read through an iterator at
the end. -/
inductive SessionError where
  | framingError (text : String)
  | invalidArgument (text : String)
  | resourceLimitExceeded (text : String)
  | assertion
  | pastTheEnd
deriving DecidableEq

/-- `SessionPoint`: a command, and an offset in it. -/
structure SessionPoint where
  command : SequenceNumber := 0
  offset : Nat := 0
deriving DecidableEq

namespace SessionPoint

def advance (p : SessionPoint) (f : SessionFrame) : Except SessionError SessionPoint :=
  if f.isControl then .ok p -- Ignore controls.
  else if f.starts then
    if p.offset ≠ 0 then .error (.framingError "Unexpected command start frame.")
    else if !f.isCommand then
      .error (.framingError ("Command start frame has invalid type" ++ String.singleton (Char.ofNat f.type.toNat)))
    else if f.ends then .ok { p with command := p.command + 1 } -- Single-frame command.
    else .ok { p with offset := p.offset + f.encodedSize }
  else -- continuation frame for partial command
    if p.offset = 0 then .error (.framingError "Unexpected command continuation frame.")
    else if f.ends then .ok { command := p.command + 1, offset := 0 }
    else .ok { p with offset := p.offset + f.encodedSize }

/-- `operator<`. -/
def lt (p q : SessionPoint) : Bool :=
  p.command.lt q.command || (p.command == q.command && decide (p.offset < q.offset))

/-- `operator<=`, of `boost::totally_ordered1`. -/
def le (p q : SessionPoint) : Bool := !q.lt p

/-- `operator<<`. -/
def text (p : SessionPoint) : String := "(" ++ toString p.command.toNat ++ "+" ++ toString p.offset ++ ")"

end SessionPoint

structure SendState where
  /-- Can replay from this point. -/
  replayPoint : SessionPoint := {}
  /-- Point of last flush. -/
  flushPoint : SessionPoint := {}
  /-- Send from this point. -/
  sendPoint : SessionPoint := {}
  replayList : List SessionFrame := []
  unflushedSize : Nat := 0
  replaySize : Nat := 0
  incomplete : SequenceSet := {}
  bytesSinceKnownCompleted : Nat := 0
deriving DecidableEq

structure ReceiveState where
  expected : SessionPoint := {}
  received : SessionPoint := {}
  incomplete : SequenceSet := {}
  bytesSinceKnownCompleted : Nat := 0
deriving DecidableEq

/-- `SessionState`, with the limits of its `Configuration`; zero disables them. -/
structure SessionState where
  replayFlushLimit : Nat := 1024 * 1024
  replayHardLimit : Nat := 0
  timeout : BitVec 32 := 0
  stateful : Bool := false
  receiverTrackingDisabled : Bool := false
  sender : SendState := {}
  receiver : ReceiveState := {}
deriving DecidableEq

/-- A difference of two `size_t`. -/
def sizeSub (a b : Nat) : Nat := if b ≤ a then a - b else 2 ^ 64 + a - b

namespace SessionState

variable (s : SessionState)

def setTimeout (seconds : BitVec 32) : SessionState := { s with timeout := seconds }

/-! ## The sender -/

def senderRecord (f : SessionFrame) : SessionState × Except SessionError Unit :=
  if f.isControl then (s, .ok ()) -- Ignore control frames.
  else
    let sender :=
      { s.sender with
        replayList := if s.timeout ≠ 0 then s.sender.replayList ++ [f] else s.sender.replayList
        unflushedSize := s.sender.unflushedSize + f.encodedSize
        bytesSinceKnownCompleted := s.sender.bytesSinceKnownCompleted + f.encodedSize
        replaySize := s.sender.replaySize + f.encodedSize }
    match sender.incomplete.addRange (.point sender.sendPoint.command) with
    | none => ({ s with stateful := true, sender := sender }, .error .pastTheEnd)
    | some incomplete =>
      let sender := { sender with incomplete := incomplete }
      match sender.sendPoint.advance f with
      | .error e => ({ s with stateful := true, sender := sender }, .error e)
      | .ok p =>
        ({ s with stateful := true, sender := { sender with sendPoint := p } },
          if s.replayHardLimit ≠ 0 ∧ s.replayHardLimit < sender.replaySize then
            .error (.resourceLimitExceeded "Replay buffer exceeeded hard limit")
          else .ok ())

def senderRecordFlush : SessionState :=
  { s with sender := { s.sender with flushPoint := s.sender.sendPoint, unflushedSize := 0 } }

/-- The loop of `senderConfirmed` over the frames that are left of the replay list. What is left
at its end is returned. -/
def confirmLoop (confirmed : SequenceNumber) : List SessionFrame → SendState →
    SendState × Except SessionError (List SessionFrame)
  | [], s => (s, .ok [])
  | f :: fs, s =>
    if s.replayPoint.command.lt confirmed then
      match s.replayPoint.advance f with
      | .error e => (s, .error e)
      | .ok p =>
        if !p.le s.sendPoint then ({ s with replayPoint := p }, .error .assertion)
        else
          confirmLoop confirmed fs { s with
              replayPoint := p
              replaySize := sizeSub s.replaySize f.encodedSize
              unflushedSize :=
                if s.flushPoint.lt p then sizeSub s.unflushedSize f.encodedSize else s.unflushedSize }
    else (s, .ok (f :: fs))

def senderConfirmed (confirmed : SessionPoint) : SessionState × Except SessionError Unit :=
  if s.sender.sendPoint.lt confirmed then
    (s, .error
      (.invalidArgument (": confirmed < " ++ confirmed.text ++ " but only sent < " ++ s.sender.sendPoint.text)))
  else
    match confirmLoop confirmed.command s.sender.replayList s.sender with
    | (sender, .error e) => ({ s with sender := sender }, .error e)
    | (sender, .ok rest) =>
      let sender :=
        { sender with
          flushPoint := if sender.flushPoint.lt sender.replayPoint then sender.replayPoint else sender.flushPoint
          replayList := rest }
      ({ s with sender := sender }, if sender.replayPoint.offset = 0 then .ok () else .error .assertion)

def senderCompleted (commands : SequenceSet) : SessionState × Except SessionError Unit :=
  match commands.ranges with
  | [] => (s, .ok ())
  | r :: _ =>
    match s.sender.incomplete.removeSet commands with
    | none => (s, .error .pastTheEnd)
    | some incomplete =>
      -- Completion implies confirmation but we don't handle out-of-order confirmation, so
      -- confirm up to the end of the first contiguous range of commands.
      senderConfirmed { s with sender := { s.sender with incomplete := incomplete } } { command := r.end_ }

/-- The loop of `senderExpected`: the frames from the command on. -/
def replayFrom (command : SequenceNumber) : List SessionFrame → SessionPoint →
    Except SessionError (List SessionFrame × SessionPoint)
  | [], p => .ok ([], p)
  | f :: fs, p =>
    if p.command.lt command then do replayFrom command fs (← p.advance f) else .ok (f :: fs, p)

def senderExpected (expect : SessionPoint) : Except SessionError (List SessionFrame) :=
  if expect.lt s.sender.replayPoint || s.sender.sendPoint.lt expect then
    .error (.invalidArgument ": expected command-point out of range.")
  else do
    let r ← replayFrom expect.command s.sender.replayList s.sender.replayPoint
    if r.2.command = expect.command then .ok r.1 else .error .assertion

/-! ## The receiver -/

def receiverSetCommandPoint (point : SessionPoint) : SessionState × Except SessionError Unit :=
  if s.stateful && s.receiver.received.lt point then
    (s, .error (.invalidArgument ": Command-point out of range."))
  else
    ({ s with receiver :=
        { s.receiver with
          expected := point
          received := if s.receiver.received.lt point then point else s.receiver.received } }, .ok ())

/-- The command that is being handled. -/
def receiverGetCurrent (r : ReceiveState) : SequenceNumber :=
  if r.expected.offset = 0 then r.expected.command - 1 else r.expected.command

/-- Whether the frame is to be processed: if it is a duplicate it is not. -/
def receiverRecord (f : SessionFrame) : SessionState × Except SessionError Bool :=
  if s.receiverTrackingDisabled then (s, .ok true)
  else if f.isControl then (s, .ok true) -- Ignore control frames.
  else
    match s.receiver.expected.advance f with
    | .error e => ({ s with stateful := true }, .error e)
    | .ok p =>
      let receiver :=
        { s.receiver with
          expected := p
          bytesSinceKnownCompleted := s.receiver.bytesSinceKnownCompleted + f.encodedSize }
      if receiver.received.lt p then
        let receiver := { receiver with received := p }
        match receiver.incomplete.addRange (.point (receiverGetCurrent receiver)) with
        | none => ({ s with stateful := true, receiver := receiver }, .error .pastTheEnd)
        | some incomplete =>
          ({ s with stateful := true, receiver := { receiver with incomplete := incomplete } }, .ok true)
      else ({ s with stateful := true, receiver := receiver }, .ok false)

end SessionState

end QB.Impl
