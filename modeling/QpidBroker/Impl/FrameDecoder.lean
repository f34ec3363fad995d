import QpidBroker.Impl.Buffer

/-!
# Decoding frames

`AMQFrame::decode` with the bodies it creates, `AMQFrame::encode`, and `FrameDecoder`, which
keeps what came of a frame that is not complete.

* The decoders of methods and of the properties in a header are generated from the
  specification of the protocol: they are parameters (`BodyDecoders`). Each reads one field
  after the other from the buffer.
* A buffer is what it holds from its position on. `decode` that returns false leaves the
  buffer as it was.
* A failed assertion ends the decoding like an exception (`DecodeFailure`).
-/

namespace QB.Impl

open Codec Buffer

/-- `MethodBodyFactory::create` with the `decode` of the methods, and the properties of a
header: without any, and `properties.decode(buffer, len, type)`, which returns false for an
unknown type. -/
structure BodyDecoders (M P : Type) where
  method : BitVec 8 → BitVec 8 → Except CodingError (Get M)
  properties : P
  property : P → BitVec 32 → BitVec 16 → Option (Get P)
  method_stable {c m : BitVec 8} {d : Get M} : method c m = .ok d → Stable d
  property_stable {p : P} {len : BitVec 32} {type : BitVec 16} {d : Get P} : property p len type = some d → Stable d

inductive AMQBody (M P : Type) where
  | method (m : M)
  | header (properties : P)
  | content (data : Octets)
  | heartbeat
deriving DecidableEq

structure AMQFrame (M P : Type) where
  bof : Bool
  eof : Bool
  bos : Bool
  eos : Bool
  channel : BitVec 16
  subchannel : BitVec 8
  body : AMQBody M P
deriving DecidableEq

variable {M P : Type} (B : BodyDecoders M P)

namespace AMQFrame

/-- The size of the header of a frame. -/
def frameOverhead : Nat := 12

def decodeSizeMin : Nat := 4

def decodeSize (data : Octets) : Nat := (Octets.word 16 ((data.drop 2).take 2)).toNat

/-! ## Bodies -/

/-- `properties.decode(buffer, len, type)`, which must not return false. -/
def decodeProperties (p : P) (len : BitVec 32) (type : BitVec 16) : Get P :=
  match B.property p len type with
  | none => throw (CodingError.exception ("Unexpected property type: " ++ toString type.toNat))
  | some decode => decode

/-- One round of `AMQHeaderBody::decode`. -/
def decodeRound (p : P) : Get P := do
  let len ← getLong
  let type ← getShort
  decodeProperties B p len type

/-- The loop of `AMQHeaderBody::decode`. Each round takes at least the six octets of a
length and a type, so there are fewer rounds than octets in the body. -/
def headerLoop : Nat → Nat → P → Get P
  | 0, _, p => pure p
  | fuel + 1, limit, p => fun buffer =>
    if limit + 2 < buffer.length then (decodeRound B p >>= headerLoop fuel limit) buffer else .ok (p, buffer)

/-- `AMQHeaderBody::decode(buffer, size)`. -/
def decodeHeaderBody (size : Nat) : Get P := fun buffer =>
  headerLoop B size (buffer.length - size) B.properties buffer

/-- The body that is created for the type of the frame, and its `decode(buffer, size)`. -/
def decodeBody (type : BitVec 8) (size : Nat) : Get (AMQBody M P) :=
  if type = 0 ∨ type = 1 then do
    let c ← getOctet
    let m ← getOctet
    match B.method c m with
    | .error e => throw e
    | .ok decode => .method <$> decode
  else if type = 2 then .header <$> decodeHeaderBody B size
  else if type = 3 then .content <$> getRawData size
  else if type = 8 then pure .heartbeat
  else throw (.illegalArgument ("Invalid frame type " ++ String.singleton (Char.ofNat type.toNat)))

/-! ## Frames -/

/-- What is read of the header of a frame. -/
structure Header where
  flags : BitVec 8
  type : BitVec 8
  frameSize : BitVec 16
  field1 : BitVec 8
  channel : BitVec 16
deriving DecidableEq

def decodeHeader : Get Header := do
  let flags ← getOctet
  throwIf ((flags &&& 0xc0) >>> 6 != 0) (.framingError "Framing version unsupported")
  let type ← getOctet
  let frameSize ← getShort
  throwIf (frameSize.toNat < frameOverhead) (.framingError ("Frame size too small " ++ toString frameSize.toNat))
  let reserved1 ← getOctet
  let field1 ← getOctet
  let channel ← getShort
  let _ ← getLong
  throwIf (flags &&& 0x30 != 0 || reserved1 != 0 || field1 &&& 0xf0 != 0) (.framingError "Reserved bits not zero")
  return ⟨flags, type, frameSize, field1, channel⟩

/-- The frame with this header and body. -/
def make (h : Header) (body : AMQBody M P) : AMQFrame M P where
  bof := h.flags &&& 0x08 != 0
  eof := h.flags &&& 0x04 != 0
  bos := h.flags &&& 0x02 != 0
  eos := h.flags &&& 0x01 != 0
  channel := h.channel
  subchannel := h.field1 &&& 0x0f
  body := body

/-- `decode(buffer)`: no frame if the buffer does not hold all of it. -/
def decode : Get (Option (AMQFrame M P)) := fun buffer =>
  if buffer.length < frameOverhead then .ok (none, buffer)
  else decodeHeader buffer >>= fun h =>
    if h.2.length < h.1.frameSize.toNat - frameOverhead then .ok (none, buffer)
    else (decodeBody B h.1.type (h.1.frameSize.toNat - frameOverhead) h.2).map fun b => (some (make h.1 b.1), b.2)

end AMQFrame

/-! ## Encoding -/

/-- `type()`, `amqpClassId()`, `amqpMethodId()`, `encodedSize()` and `encode(buffer)` of the methods, and the last two
of the properties of a header: generated like the decoders. -/
structure BodyEncoders (M P : Type) where
  type : M → BitVec 8
  amqpClassId : M → BitVec 8
  amqpMethodId : M → BitVec 8
  methodSize : M → BitVec 32
  method : M → Put
  propertiesSize : P → BitVec 32
  properties : P → Put

variable (E : BodyEncoders M P)

namespace AMQBody

def type : AMQBody M P → BitVec 8
  | .method m => E.type m
  | .header _ => 2
  | .content _ => 3
  | .heartbeat => 8

def encodedSize : AMQBody M P → BitVec 32
  | .method m => E.methodSize m
  | .header p => E.propertiesSize p
  | .content data => .ofNat 32 data.length
  | .heartbeat => 0

/-- What `AMQFrame::encode` puts before a method. -/
def encodeIds : AMQBody M P → Put
  | .method m => do
    putOctet (E.amqpClassId m)
    putOctet (E.amqpMethodId m)
  | _ => pure ()

def encode : AMQBody M P → Put
  | .method m => E.method m
  | .header p => E.properties p
  | .content data => putRawData data
  | .heartbeat => pure ()

end AMQBody

namespace AMQFrame

variable (f : AMQFrame M P)

def encodedSize : BitVec 32 :=
  BitVec.ofNat 32 frameOverhead + f.body.encodedSize E + match f.body with
    | .method _ => 2
    | _ => 0

/-- Controls are on track 0, everything else on 1. -/
def track : BitVec 8 := if f.body.type E = 0 then 0 else 1

def flags : BitVec 8 :=
  (if f.bof then 0x08 else 0) ||| (if f.eof then 0x04 else 0) ||| (if f.bos then 0x02 else 0)
    ||| if f.eos then 0x01 else 0

/-- `encode(buffer)`: the size is cut to 16 bits. -/
def encode : Put := do
  putOctet f.flags
  putOctet (f.body.type E)
  putShort ((f.encodedSize E).setWidth 16)
  putOctet 0
  putOctet (0x0f &&& f.track E)
  putShort f.channel
  putLong 0
  f.body.encodeIds E
  f.body.encode E

end AMQFrame

/-! ## The decoder -/

inductive DecodeFailure where
  | thrown (e : CodingError)
  | assertion
deriving DecidableEq

/-- What a call of `FrameDecoder::decode` leaves: the frame if there is one, the fragment,
and the rest of the buffer. -/
structure Decoded (M P : Type) where
  frame : Option (AMQFrame M P)
  fragment : Octets
  rest : Octets
deriving DecidableEq

namespace FrameDecoder

/-- `append(bytes, buffer, n)`: at most `n` octets, and no more than there are. -/
def append (bytes buffer : Octets) (n : Nat) : Octets × Octets := (bytes ++ buffer.take n, buffer.drop n)

/-- `decode` without a fragment. -/
def decodeBuffer (buffer : Octets) : Except DecodeFailure (Decoded M P) :=
  match AMQFrame.decode B buffer with
  | .error e => .error (.thrown e)
  | .ok (some f, rest) => .ok ⟨some f, [], rest⟩
  | .ok (none, rest) => .ok ⟨none, (append [] rest rest.length).1, (append [] rest rest.length).2⟩

/-- The frame in the fragment, which is all of it. -/
def decodeWhole (fragment buffer : Octets) : Except DecodeFailure (Decoded M P) :=
  match AMQFrame.decode B fragment with
  | .error e => .error (.thrown e)
  | .ok (some f, rest) => if rest = [] then .ok ⟨some f, [], buffer⟩ else .error .assertion
  | .ok (none, _) => .ok ⟨none, fragment, buffer⟩

/-- `decode` with a fragment that was brought to the octets with the size, if there are so many. -/
def decodeFragment (fragment buffer : Octets) : Except DecodeFailure (Decoded M P) :=
  if AMQFrame.decodeSizeMin ≤ fragment.length then
    let size := AMQFrame.decodeSize fragment
    if size ≤ fragment.length then
      .error (.thrown (.framingError ("Frame size " ++ toString size ++ " is too small.")))
    else
      let a := append fragment buffer (size - fragment.length)
      decodeWhole B a.1 a.2
  else .ok ⟨none, fragment, buffer⟩

def decode (fragment buffer : Octets) : Except DecodeFailure (Decoded M P) :=
  if buffer = [] then .ok ⟨none, fragment, buffer⟩
  else if fragment = [] then decodeBuffer B buffer
  else if fragment.length < AMQFrame.decodeSizeMin then
    let a := append fragment buffer (AMQFrame.decodeSizeMin - fragment.length)
    decodeFragment B a.1 a.2
  else decodeFragment B fragment buffer

end FrameDecoder

end QB.Impl
