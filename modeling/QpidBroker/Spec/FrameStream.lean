import QpidBroker.Impl.FrameDecoder

/-!
# Streams of frames

A stream arrives cut into buffers. Each buffer is given to the decoder until it is used up
(`feed`); what comes of it are the frames, the octet of the stream where the frame starts
that could not be decoded, if there is one, and what is left of a frame that is not complete
(`Received`).

`WellFramed` is a condition on the stream alone: each frame, cut out by the size it
declares, is used up by its body.
-/

namespace QB.Spec

open Impl

variable {M P : Type} (B : BodyDecoders M P)

/-- The frames that were decoded, where the first frame starts that failed, and the fragment
that the decoder still holds at the end. -/
structure Received (M P : Type) where
  frames : List (AMQFrame M P) := []
  error : Option Nat := none
  fragment : Octets := []
deriving DecidableEq

/-- What was received with a frame of `size` octets before it. -/
def Received.after (f : AMQFrame M P) (size : Nat) (r : Received M P) : Received M P :=
  ⟨f :: r.frames, r.error.map (· + size), r.fragment⟩

/-- The same frames, and an error at the same place or none. -/
def Received.Same (r r' : Received M P) : Prop := r.frames = r'.frames ∧ r.error = r'.error

/-- Call `decode` on each buffer until it is used up; places are counted from the first
octet of the fragment. A call takes an octet or fails, so there are no more calls than
octets. -/
def feed : Nat → Octets → List Octets → Received M P
  | 0, fragment, _ | _ + 1, fragment, [] => { fragment }
  | fuel + 1, fragment, [] :: buffers => feed fuel fragment buffers
  | fuel + 1, fragment, buffer :: buffers =>
    match FrameDecoder.decode B fragment buffer with
    | .error _ => { error := some 0 }
    | .ok ⟨none, fragment, rest⟩ => feed fuel fragment (rest :: buffers)
    | .ok ⟨some f, fragment', rest⟩ =>
      (feed fuel fragment' (rest :: buffers)).after f (fragment.length + buffer.length - rest.length)

/-- What a new decoder makes of a stream that arrives in these buffers. -/
def receive (buffers : List Octets) : Received M P := feed B (buffers.flatten.length + buffers.length) [] buffers

/-- The body of a frame, read from these octets that are the frame's and maybe some more. -/
def bodyOf (h : AMQFrame.Header) (octets : Octets) : Except CodingError (AMQBody M P × Octets) :=
  AMQFrame.decodeBody B h.type (h.frameSize.toNat - AMQFrame.frameOverhead) (octets.drop AMQFrame.frameOverhead)

/-- The frames of the stream fill the sizes they declare. -/
inductive WellFramed : Octets → Prop where
  /-- No header, and what there is of a size is not less than what came. -/
  | short {s : Octets} (hlen : s.length < 12)
      (hsize : 4 ≤ s.length → 4 < AMQFrame.decodeSize s ∧ s.length ≤ AMQFrame.decodeSize s) : WellFramed s
  /-- A header that is refused. -/
  | refused {s : Octets} {e : CodingError} (hlen : 12 ≤ s.length) (hh : AMQFrame.decodeHeader s = .error e) :
      WellFramed s
  /-- A frame that is not complete. -/
  | incomplete {s : Octets} {h : AMQFrame.Header × Octets} (hlen : 12 ≤ s.length)
      (hh : AMQFrame.decodeHeader s = .ok h) (hsize : s.length < h.1.frameSize.toNat) : WellFramed s
  /-- A body that is refused, even if it may be read from all that follows. -/
  | broken {s : Octets} {h : AMQFrame.Header × Octets} {e : CodingError} (hlen : 12 ≤ s.length)
      (hh : AMQFrame.decodeHeader s = .ok h) (hsize : h.1.frameSize.toNat ≤ s.length)
      (hbody : bodyOf B h.1 s = .error e) : WellFramed s
  /-- A body that takes its own octets, all of them. -/
  | frame {s : Octets} {h : AMQFrame.Header × Octets} {body : AMQBody M P} (hlen : 12 ≤ s.length)
      (hh : AMQFrame.decodeHeader s = .ok h) (hsize : h.1.frameSize.toNat ≤ s.length)
      (hbody : bodyOf B h.1 (s.take h.1.frameSize.toNat) = .ok (body, []))
      (hrest : WellFramed (s.drop h.1.frameSize.toNat)) : WellFramed s

/-! ## Bodies that are read back -/

open Codec

/-- Octets that the loop over the properties of a header reads, a length, a type and a struct in each round: it starts
with properties `p` and ends with `q`. -/
inductive Rounds : P → Octets → P → Prop where
  | nil {p : P} : Rounds p [] p
  | cons {p q r : P} {len : BitVec 32} {type : BitVec 16} {decode : Get P} {o rest : Octets}
      (hd : B.property p len type = some decode) (ho : Reads decode o q) (h : Rounds q rest r) :
      Rounds p (.ofNat 4 len.toNat ++ (.ofNat 2 type.toNat ++ (o ++ rest))) r

/-- The octets after the header of a frame with this body. Those of a method and of properties are what their encoder
writes, as many as it tells, and what their decoder reads. -/
inductive Coded (E : BodyEncoders M P) : AMQBody M P → Octets → Prop where
  | method {m : M} {o : Octets} {decode : Get M} (htype : E.type m = 0 ∨ E.type m = 1)
      (hsize : (E.methodSize m).toNat = o.length) (hwrites : Writes .outOfBounds (E.method m) o)
      (hd : B.method (E.amqpClassId m) (E.amqpMethodId m) = .ok decode) (hreads : Reads decode o m) :
      Coded E (.method m) ([E.amqpClassId m] ++ ([E.amqpMethodId m] ++ o))
  | header {p : P} {o : Octets} (hsize : (E.propertiesSize p).toNat = o.length)
      (hwrites : Writes .outOfBounds (E.properties p) o) (hreads : Rounds B B.properties o p) : Coded E (.header p) o
  | content {data : Octets} : Coded E (.content data) data
  | heartbeat : Coded E .heartbeat []

/-- The frame that is read: its sub-channel is the track. -/
def onTrack (E : BodyEncoders M P) (f : AMQFrame M P) : AMQFrame M P := { f with subchannel := f.track E }

end QB.Spec
