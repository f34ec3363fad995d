import QpidBroker.Impl.Message

/-!
# Producer flow control

`broker/QueueFlowLimit.{h,cpp}`. The map `index` by sequence number is a list, the
oldest message first: the numbers in it are in order as long as they lie in one half of
the number space. Left out are the log and the management object.
-/

namespace QB.Impl

/-- A call on the ingress completion of a message. -/
inductive CompleterCall where
  | startCompleter (msg : Message)
  | finishCompleter (msg : Message)
deriving DecidableEq

structure QueueFlowLimit where
  queueName : String := ""
  flowStopCount : BitVec 32
  flowResumeCount : BitVec 32
  flowStopSize : BitVec 64
  flowResumeSize : BitVec 64
  flowStopped : Bool := false
  count : BitVec 32 := 0
  size : BitVec 64 := 0
  index : List Message := []
deriving DecidableEq

namespace QueueFlowLimit

/-- An exception, `assert(unique)`, or a null persistent context. -/
inductive Failure where
  | exception (what : String)
  | notUnique
  | nullContext
deriving DecidableEq

/-- Whether `enqueued` stops the flow. -/
def reached (f : QueueFlowLimit) : Bool :=
  f.flowStopCount ≠ 0 && f.flowStopCount < f.count || f.flowStopSize ≠ 0 && f.flowStopSize < f.size

/-- Whether `dequeued` lets a flow that is stopped resume. -/
def drained (f : QueueFlowLimit) : Bool :=
  (f.flowResumeSize = 0 || f.size < f.flowResumeSize) && (f.flowResumeCount = 0 || f.count < f.flowResumeCount)

def enqueued (f : QueueFlowLimit) (msg : Message) : Except Failure (List CompleterCall) × QueueFlowLimit :=
  let f := { f with count := f.count + 1, size := f.size + msg.getMessageSize }
  let f := { f with flowStopped := f.flowStopped || f.reached }
  if f.flowStopped || !f.index.isEmpty then
    if !msg.toBool then (.error .nullContext, f)
    else if f.index.any (·.sequence = msg.sequence) then (.error .notUnique, f)
    else (.ok [.startCompleter msg], { f with index := f.index ++ [msg] })
  else (.ok [], f)

def dequeued (f : QueueFlowLimit) (msg : Message) : Except Failure (List CompleterCall) × QueueFlowLimit :=
  if f.count = 0 then (.error (.exception ("Flow limit count underflow on dequeue. Queue=" ++ f.queueName)), f)
  else
    let f := { f with count := f.count - 1 }
    if f.size < msg.getMessageSize then
      (.error (.exception ("Flow limit size underflow on dequeue. Queue=" ++ f.queueName)), f)
    else
      let f := { f with size := f.size - msg.getMessageSize }
      let f := { f with flowStopped := f.flowStopped && !f.drained }
      if !f.flowStopped then
        -- release all pending msgs
        (.ok ((f.index.filter (·.toBool)).map .finishCompleter), { f with index := [] })
      else if f.index.any (·.sequence = msg.sequence) then
        if !msg.toBool then (.error .nullContext, f)
        else (.ok [.finishCompleter msg], { f with index := f.index.eraseP (·.sequence = msg.sequence) })
      else (.ok [], f)

end QueueFlowLimit

end QB.Impl
