import QpidBroker.Impl.TopicExchange
import Mathlib.Data.List.Infix

/-!
# Federation traces

`broker/Message.cpp` and `StringUtils.cpp`: the annotation `x-qpid.trace`, which lists the queues
with a trace id that a message came through, and `SendHeader` of `amqp_0_10/MessageTransfer.cpp`,
which writes it to the next broker.
-/

namespace QB.Impl

/-- `split(in, delims)`: the pieces between delimiters that are not empty. -/
def Text.split (text delims : Text) : List Text := (text.splitOnP (delims.contains ·)).filter (!·.isEmpty)

/-- What a `Message` keeps of the annotation `x-qpid.trace`: what `getAnnotationAsString` finds in
its encoding, and the entry of `annotations`. -/
structure TracedMessage where
  encoding : Text
  annotations : Option Text := none
deriving DecidableEq

namespace TracedMessage

def isExcluded (m : TracedMessage) (excludes : List Text) : Bool :=
  !m.encoding.isEmpty && excludes.any fun i => (Text.split m.encoding [',', ' ']).any (i == ·)

def addTraceId (m : TracedMessage) (id : Text) : TracedMessage :=
  let trace := m.encoding
  if trace.isEmpty then { m with annotations := some id }
  -- `trace.find(id) == npos`
  else if ¬ id <:+: trace then { m with annotations := some (trace ++ ',' :: id) }
  else m

def clearTrace (m : TracedMessage) : TracedMessage := { m with annotations := some [] }

/-- The message as it comes from `SendHeader`: the headers, with the annotations set over them. -/
def sendHeader (m : TracedMessage) : TracedMessage := { encoding := m.annotations.getD m.encoding }

end TracedMessage

end QB.Impl
