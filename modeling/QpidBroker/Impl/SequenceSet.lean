import QpidBroker.Impl.Buffer
import QpidBroker.Impl.RangeSet

/-!
# Sets of sequence numbers on the wire

`framing/SequenceSet.{h,cpp}`. The two numbers of a range are read as the arguments of one
call, in the order that the compiler chooses: `finishFirst` if the last argument is
evaluated first. `encode` asserts that no range is empty, and no set holds an empty one.
-/

namespace QB.Impl

open Codec

abbrev SequenceSet := RangeSet SequenceNumber

namespace SequenceSet

def add (s : SequenceSet) (start finish : SequenceNumber) : Except CodingError SequenceSet :=
  match Range.makeClosed (RangeValue.min start finish) (RangeValue.max start finish) with
  | none => .error .assertion
  | some r => (s.addRange r).elim (.error .pastTheEnd) .ok

/-- Two numbers of four octets each. -/
def rangeSize : Nat := 2 * 4

def encodedSize (s : SequenceSet) : BitVec 32 := BitVec.ofNat 32 (2 + s.ranges.length * rangeSize)

def encodeRanges : List (Range SequenceNumber) → Put
  | [] => pure ()
  | r :: rs => do
    Buffer.putLong r.begin_
    Buffer.putLong r.last
    encodeRanges rs

def encode (s : SequenceSet) : Put := do
  Buffer.putShort (BitVec.ofNat 16 (s.ranges.length * rangeSize))
  encodeRanges s.ranges

/-- The arguments of the call that adds a range. -/
def getRange (finishFirst : Bool) : Get (SequenceNumber × SequenceNumber) := do
  let a ← Buffer.getLong
  let b ← Buffer.getLong
  return if finishFirst then (b, a) else (a, b)

/-- The loop of `decode` over the ranges that are left. -/
def decodeRanges (finishFirst : Bool) : Nat → SequenceSet → Get SequenceSet
  | 0, s => pure s
  | n + 1, s => do
    let ends ← getRange finishFirst
    fun l => s.add ends.1 ends.2 >>= fun s => decodeRanges finishFirst n s l

/-- The rest of `decode`, after the length. -/
def decodeSized (finishFirst : Bool) (size : BitVec 16) : Get SequenceSet :=
  if size.toNat % rangeSize ≠ 0 then
    fun _ => .error (.illegalArgument ("Invalid size for sequence set: " ++ toString size.toNat))
  else decodeRanges finishFirst (size.toNat / rangeSize) {}

def decode (finishFirst : Bool) : Get SequenceSet := Buffer.getShort >>= decodeSized finishFirst

end SequenceSet

end QB.Impl
