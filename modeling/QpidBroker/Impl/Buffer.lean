import QpidBroker.Framework.Codec

/-!
# Buffers

`framing/Buffer.{h,cpp}`: numbers in network order and texts, in a bounded string of
octets. What a buffer that is read holds from its position on is the state of a decoder;
what was put into one that is written, and how far it is from its end, that of an encoder.
-/

namespace QB.Impl

open Codec Octets

/-- The exceptions of coding: `OutOfBounds`, `IllegalArgumentException`,
`FramingErrorException` and `Exception`. The last two are none of them: an assertion that
fails, and a read through an iterator at the end of a container, which the language does
not define. -/
inductive CodingError where
  | outOfBounds
  | illegalArgument (text : String)
  | framingError (text : String)
  | exception (text : String)
  | assertion
  | pastTheEnd
deriving DecidableEq

/-- A buffer that is read. -/
abbrev Get := Decoder CodingError

/-- A buffer that is written. -/
abbrev Put := Encoder CodingError Unit

def throwIf (c : Bool) (e : CodingError) : Get Unit := if c then throw e else pure ()

theorem throwIf_bind {β : Type} {c : Bool} {e : CodingError} {f : Unit → Get β} {l : Octets} :
    (throwIf c e >>= f) l = if c then .error e else f () l := by
  cases c <;> rfl

namespace Buffer

/-! ## Writing -/

def putRawData (o : Octets) : Put := put .outOfBounds o

def putOctet (i : BitVec 8) : Put := putRawData [i]

def putShort (i : BitVec 16) : Put := putRawData (.ofNat 2 i.toNat)

def putLong (i : BitVec 32) : Put := putRawData (.ofNat 4 i.toNat)

/-- `putUInt<n>(i)`, which throws if the number does not fit: `n` is 1, 2 or 4. -/
def putUInt (n : Nat) (i : Nat) : Put :=
  if i < 256 ^ n then putRawData (.ofNat n i)
  else fun _ => .error (.exception ("Could not encode (" ++ toString i ++ ") as uint" ++ toString (8 * n) ++ "_t."))

/-- `putShortString(s)`: the check is made before anything is put. -/
def putShortString (s : Octets) : Put :=
  if s.length ≤ 255 then do
    putOctet (BitVec.ofNat 8 s.length)
    putRawData s
  else fun _ => .error (.exception ("Could not encode string of " ++ toString s.length ++ " bytes as uint8_t string."))

/-! ## Reading -/

def available : Get Nat := fun b => .ok (b.length, b)

def getRawData (len : Nat) : Get Octets := take .outOfBounds len

def getOctet : Get (BitVec 8) := (word 8 ·) <$> getRawData 1

def getShort : Get (BitVec 16) := (word 16 ·) <$> getRawData 2

def getLong : Get (BitVec 32) := (word 32 ·) <$> getRawData 4

/-- `getUInt<n>()`: `n` is 1, 2 or 4. -/
def getUInt (n : Nat) : Get Nat := (toNat ·) <$> getRawData n

def getShortString : Get Octets := do
  let len ← getOctet
  getRawData len.toNat

theorem word_getRawData {k n : Nat} {l : Octets} (h : n ≤ l.length) :
    ((word k ·) <$> getRawData n : Get (BitVec k)) l = .ok (word k (l.take n), l.drop n) := by
  have hmap : ((word k ·) <$> getRawData n : Get (BitVec k)) l =
    getRawData n l >>= fun r => pure (word k r.1, r.2) := rfl
  rw [hmap, getRawData, take_eq_ok h]
  rfl

theorem getOctet_eq {l : Octets} (h : 1 ≤ l.length) : getOctet l = .ok (word 8 (l.take 1), l.drop 1) :=
  word_getRawData h

theorem getShort_eq {l : Octets} (h : 2 ≤ l.length) : getShort l = .ok (word 16 (l.take 2), l.drop 2) :=
  word_getRawData h

theorem getLong_eq {l : Octets} (h : 4 ≤ l.length) : getLong l = .ok (word 32 (l.take 4), l.drop 4) :=
  word_getRawData h

/-! ## What is put is read back -/

variable {o p : Octets}

theorem writes_putRawData (o : Octets) : Writes .outOfBounds (putRawData o) o := Writes.put o

theorem reads_getRawData (o : Octets) : Reads (getRawData o.length) o o := Reads.take _ o

theorem reads_getOctet (i : BitVec 8) : Reads getOctet [i] i := by
  have h := (reads_getRawData [i]).map (word 8 ·)
  have hi : word 8 [i] = i := by simp [word]
  rwa [hi] at h

theorem reads_getShort (i : BitVec 16) : Reads getShort (.ofNat 2 i.toNat) i := by
  have h := (reads_getRawData (.ofNat 2 i.toNat)).map (word 16 ·)
  rwa [length_ofNat, word_ofNat 2 i] at h

theorem reads_getLong (i : BitVec 32) : Reads getLong (.ofNat 4 i.toNat) i := by
  have h := (reads_getRawData (.ofNat 4 i.toNat)).map (word 32 ·)
  rwa [length_ofNat, word_ofNat 4 i] at h

theorem reads_getUInt {n i : Nat} (h : i < 256 ^ n) : Reads (getUInt n) (.ofNat n i) i := by
  have hr := (reads_getRawData (.ofNat n i)).map (toNat ·)
  rwa [length_ofNat, toNat_ofNat, Nat.mod_eq_of_lt h] at hr

theorem reads_throwIf_bind {β : Type} {c : Bool} {e : CodingError} {f : Unit → Get β} {b : β} (hc : c = false)
    (h : Reads (f ()) o b) : Reads (throwIf c e >>= f) o b := by
  intro rest
  rw [throwIf_bind, hc]
  exact h rest

end Buffer

end QB.Impl
